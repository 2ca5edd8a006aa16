/-
  Regular expressions with groups, matched by backtracking.

  A backtracking matcher tries the ways in which an expression can match in a fixed order: a repetition
  that is greedy tries one more round first, one that is lazy tries to stop first.  `paths` lists the
  ways in that order, each with what the groups captured and with what is left of the input; a match is
  the first of them.

  * **Soundness** (`paths_sound`) — every way reads a word of the expression (`Accepts`), in which a group
    captures words of what it is around (`Accepts.captured`);
  * **The first way** (`First`) — through a sequence (`First.seq`), around a repetition (`First.star`,
    `First.stop`), and back to where the rest matches (`First.seq_of_split`): what is tried before it
    has to fail.

  A round of a repetition that reads nothing is not tried.

  The list of ways is finite, since a round of a repetition reads something; so `paths` is a
  function by recursion on the expression and, in a repetition, on what is left of the input.
  Properties of all ways (`paths_sound`) are inductions over it. The rules for the first way are
  what one does by hand when one follows a matcher: read on as long as one can, and go back no
  further than one has to.
-/
import Mathlib

/-- A regular expression on letters in `α`, whose groups are named by `G`. -/
inductive Regex (G α : Type) where
  | char (p : α → Bool)
  | seq (r t : Regex G α)
  | opt (r : Regex G α)
  | star (r : Regex G α)
  | lazyStar (r : Regex G α)
  | group (g : G) (r : Regex G α)

namespace Regex

variable {G α : Type}

/-- `r+`. -/
def plus (r : Regex G α) : Regex G α := .seq r (.star r)

/-- `r+?`. -/
def lazyPlus (r : Regex G α) : Regex G α := .seq r (.lazyStar r)

/-- What the groups captured, the first capture first. -/
abbrev Captures (G α : Type) : Type := List (G × List α)

/-- What a group captured last. -/
def Captures.get? [DecidableEq G] (c : Captures G α) (g : G) : Option (List α) :=
  (c.filter fun capture => capture.1 = g).getLast?.map Prod.snd

/-! ## Ways to match

A backtracking matcher tries its ways in a fixed order, and takes the first. Here all ways are a
list in that order, so that the first one can be spoken of. -/

/-- One way, and then another one. -/
def join (c : Captures G α) (ways : List (Captures G α × List α)) : List (Captures G α × List α) :=
  ways.map fun m => (c ++ m.1, m.2)

/-- At most `n` rounds, one more round first. -/
def rounds (ways : List α → List (Captures G α × List α)) :
    ℕ → List α → List (Captures G α × List α)
  | 0, s => [([], s)]
  | n + 1, s =>
    (((ways s).filter fun m => m.2.length < s.length).flatMap fun m => join m.1 (rounds ways n m.2))
      ++ [([], s)]

/-- At most `n` rounds, none first. -/
def lazyRounds (ways : List α → List (Captures G α × List α)) :
    ℕ → List α → List (Captures G α × List α)
  | 0, s => [([], s)]
  | n + 1, s =>
    ([], s) :: ((ways s).filter fun m => m.2.length < s.length).flatMap fun m =>
      join m.1 (lazyRounds ways n m.2)

/-- The ways in which `r` can match at the start of `s`, in the order in which they are tried. -/
def paths : Regex G α → List α → List (Captures G α × List α)
  | .char _, [] => []
  | .char p, a :: s => if p a then [([], s)] else []
  | .seq r t, s => (r.paths s).flatMap fun m => join m.1 (t.paths m.2)
  | .opt r, s => r.paths s ++ [([], s)]
  | .star r, s => rounds r.paths s.length s
  | .lazyStar r, s => lazyRounds r.paths s.length s
  | .group g r, s =>
    (r.paths s).map fun m => (m.1 ++ [(g, s.take (s.length - m.2.length))], m.2)

/-- The match at the start of `s`. -/
def first (r : Regex G α) (s : List α) : Option (Captures G α × List α) := (r.paths s).head?

/-- The matches in `s` from left to right, each of them behind the one before; `n` bounds the number
    of places that are looked at. -/
def matchesFrom (r : Regex G α) : ℕ → List α → List (Captures G α)
  | 0, _ => []
  | _ + 1, [] => (r.first []).toList.map Prod.fst
  | n + 1, a :: s =>
    match r.first (a :: s) with
    -- behind an empty match it goes on one letter further
    | some (c, rest) => c :: r.matchesFrom n (if rest.length < (a :: s).length then rest else s)
    | none => r.matchesFrom n s

/-- All matches in `s`. -/
def findAll (r : Regex G α) (s : List α) : List (Captures G α) := r.matchesFrom (s.length + 1) s

/-! ## The words of an expression

The usual meaning of an expression, with the captures; the list of ways says nothing else, only
which one comes first. -/

/-- `r` has the word `u`, and its groups capture `c` in it. -/
inductive Accepts : Regex G α → List α → Captures G α → Prop
  | char {p : α → Bool} {a : α} (h : p a = true) : Accepts (.char p) [a] []
  | seq {r t : Regex G α} {u v : List α} {c d : Captures G α} (hr : Accepts r u c)
      (ht : Accepts t v d) : Accepts (.seq r t) (u ++ v) (c ++ d)
  | optNone {r : Regex G α} : Accepts (.opt r) [] []
  | optSome {r : Regex G α} {u : List α} {c : Captures G α} (hr : Accepts r u c) :
      Accepts (.opt r) u c
  | starNil {r : Regex G α} : Accepts (.star r) [] []
  | starCons {r : Regex G α} {u v : List α} {c d : Captures G α} (hr : Accepts r u c)
      (ht : Accepts (.star r) v d) : Accepts (.star r) (u ++ v) (c ++ d)
  | lazyNil {r : Regex G α} : Accepts (.lazyStar r) [] []
  | lazyCons {r : Regex G α} {u v : List α} {c d : Captures G α} (hr : Accepts r u c)
      (ht : Accepts (.lazyStar r) v d) : Accepts (.lazyStar r) (u ++ v) (c ++ d)
  | group {g : G} {r : Regex G α} {u : List α} {c : Captures G α} (hr : Accepts r u c) :
      Accepts (.group g r) u (c ++ [(g, u)])

/-- The way `m` reads a word of `r` at the start of `s`. -/
def Reads (r : Regex G α) (s : List α) (m : Captures G α × List α) : Prop :=
  ∃ u, s = u ++ m.2 ∧ Accepts r u m.1

theorem mem_join {c : Captures G α} {ways : List (Captures G α × List α)}
    {m : Captures G α × List α} : m ∈ join c ways ↔ ∃ m' ∈ ways, (c ++ m'.1, m'.2) = m :=
  List.mem_map

/-- Every way reads a word, where the ways of one round do. -/
theorem rounds_sound {r : Regex G α} (hr : ∀ s, ∀ m ∈ r.paths s, Reads r s m) :
    ∀ (n : ℕ) (s : List α), ∀ m ∈ rounds r.paths n s, Reads (.star r) s m := by
  intro n
  induction n with
  | zero =>
    intro s m hm
    obtain rfl := List.mem_singleton.mp hm
    exact ⟨[], rfl, .starNil⟩
  | succ n ih =>
    intro s m hm
    rcases List.mem_append.mp hm with hm | hm
    · obtain ⟨m₁, hm₁, hm⟩ := List.mem_flatMap.mp hm
      obtain ⟨m₂, hm₂, rfl⟩ := mem_join.mp hm
      obtain ⟨u, hu, hacc⟩ := hr s m₁ (List.mem_filter.mp hm₁).1
      obtain ⟨v, hv, hrest⟩ := ih m₁.2 m₂ hm₂
      exact ⟨u ++ v, by rw [hu, hv, List.append_assoc], .starCons hacc hrest⟩
    · obtain rfl := List.mem_singleton.mp hm
      exact ⟨[], rfl, .starNil⟩

/-- Every way of a lazy repetition reads a word, where the ways of one round do. -/
theorem lazyRounds_sound {r : Regex G α} (hr : ∀ s, ∀ m ∈ r.paths s, Reads r s m) :
    ∀ (n : ℕ) (s : List α), ∀ m ∈ lazyRounds r.paths n s, Reads (.lazyStar r) s m := by
  intro n
  induction n with
  | zero =>
    intro s m hm
    obtain rfl := List.mem_singleton.mp hm
    exact ⟨[], rfl, .lazyNil⟩
  | succ n ih =>
    intro s m hm
    rcases List.mem_cons.mp hm with rfl | hm
    · exact ⟨[], rfl, .lazyNil⟩
    · obtain ⟨m₁, hm₁, hm⟩ := List.mem_flatMap.mp hm
      obtain ⟨m₂, hm₂, rfl⟩ := mem_join.mp hm
      obtain ⟨u, hu, hacc⟩ := hr s m₁ (List.mem_filter.mp hm₁).1
      obtain ⟨v, hv, hrest⟩ := ih m₁.2 m₂ hm₂
      exact ⟨u ++ v, by rw [hu, hv, List.append_assoc], .lazyCons hacc hrest⟩

/-- **Soundness**: every way reads a word of the expression. By induction on the expression;
    repetitions have an induction of their own on the rounds. -/
theorem paths_sound : ∀ (r : Regex G α) (s : List α), ∀ m ∈ r.paths s, Reads r s m := by
  intro r
  induction r with
  | char p =>
    intro s m hm
    rcases s with _ | ⟨a, s⟩
    · cases hm
    · rw [paths] at hm
      split at hm
      · rename_i ha
        obtain rfl := List.mem_singleton.mp hm
        exact ⟨[a], rfl, .char ha⟩
      · cases hm
  | seq r t ihr iht =>
    intro s m hm
    obtain ⟨m₁, hm₁, hm⟩ := List.mem_flatMap.mp hm
    obtain ⟨m₂, hm₂, rfl⟩ := mem_join.mp hm
    obtain ⟨u, hu, hacc⟩ := ihr s m₁ hm₁
    obtain ⟨v, hv, hrest⟩ := iht m₁.2 m₂ hm₂
    exact ⟨u ++ v, by rw [hu, hv, List.append_assoc], .seq hacc hrest⟩
  | opt r ih =>
    intro s m hm
    rcases List.mem_append.mp hm with hm | hm
    · obtain ⟨u, hu, hacc⟩ := ih s m hm
      exact ⟨u, hu, .optSome hacc⟩
    · obtain rfl := List.mem_singleton.mp hm
      exact ⟨[], rfl, .optNone⟩
  | star r ih => exact fun s m hm => rounds_sound ih s.length s m hm
  | lazyStar r ih => exact fun s m hm => lazyRounds_sound ih s.length s m hm
  | group g r ih =>
    intro s m hm
    obtain ⟨m₁, hm₁, rfl⟩ := List.mem_map.mp hm
    obtain ⟨u, hu, hacc⟩ := ih s m₁ hm₁
    refine ⟨u, hu, ?_⟩
    have htake : s.take (s.length - m₁.2.length) = u := by
      rw [hu, List.length_append, Nat.add_sub_cancel, List.take_left]
    show Accepts (.group g r) u (m₁.1 ++ [(g, s.take (s.length - m₁.2.length))])
    rw [htake]
    exact .group hacc

/-- An expression fails where none of its words is at the start of the input. -/
theorem paths_eq_nil {r : Regex G α} {s : List α}
    (h : ∀ u v c, s = u ++ v → ¬ Accepts r u c) : r.paths s = [] := by
  rw [List.eq_nil_iff_forall_not_mem]
  intro m hm
  obtain ⟨u, hu, hacc⟩ := paths_sound r s m hm
  exact h u m.2 m.1 hu hacc

/-- A word of a sequence is a word of each part. -/
theorem Accepts.seq_split {r t : Regex G α} {u : List α} {c : Captures G α}
    (h : Accepts (.seq r t) u c) :
    ∃ v w d e, u = v ++ w ∧ c = d ++ e ∧ Accepts r v d ∧ Accepts t w e := by
  rcases h with ⟨⟩ | ⟨hr, ht⟩
  exact ⟨_, _, _, _, rfl, rfl, hr, ht⟩

/-- A word of `r*` whose letters are single ones. -/
theorem Accepts.star_char {p : α → Bool} {u : List α} {c : Captures G α}
    (h : Accepts (.star (.char p)) u c) : (∀ a ∈ u, p a = true) ∧ c = [] := by
  generalize hr : (Regex.char p : Regex G α).star = r at h
  induction h with
  | starNil =>
    refine ⟨fun a ha => ?_, rfl⟩
    cases ha
  | @starCons r' u v c d hacc _ _ ih =>
    obtain rfl : Regex.char p = r' := Regex.star.inj hr
    obtain ⟨hall, rfl⟩ := ih rfl
    rcases hacc with ⟨ha⟩
    refine ⟨fun b hb => ?_, rfl⟩
    rcases List.mem_cons.mp hb with rfl | hb
    · assumption
    · exact hall b hb
  | _ => cases hr

/-- A word of `[p]+`. -/
theorem Accepts.plus_char {p : α → Bool} {u : List α} {c : Captures G α}
    (h : Accepts (plus (.char p)) u c) : u ≠ [] ∧ (∀ a ∈ u, p a = true) ∧ c = [] := by
  obtain ⟨v, w, d, e, rfl, rfl, hchar, hstar⟩ := h.seq_split
  rcases hchar with ⟨ha⟩
  obtain ⟨hall, rfl⟩ := hstar.star_char
  refine ⟨List.cons_ne_nil _ _, fun b hb => ?_, rfl⟩
  rcases List.mem_cons.mp hb with rfl | hb
  · assumption
  · exact hall b hb

/-! ## What is captured

A group captures what the expression in it reads, and nothing else is captured. -/

/-- The groups of an expression, each with what it is around. -/
def groups : Regex G α → List (G × Regex G α)
  | .char _ => []
  | .seq r t => r.groups ++ t.groups
  | .opt r | .star r | .lazyStar r => r.groups
  | .group g r => r.groups ++ [(g, r)]

/-- **A group captures words of what it is around.** By induction on how the word is read. -/
theorem Accepts.captured {r : Regex G α} {u : List α} {c : Captures G α} (h : Accepts r u c) :
    ∀ m ∈ c, ∃ r' d, (m.1, r') ∈ r.groups ∧ Accepts r' m.2 d := by
  induction h with
  | char _ =>
    intro m hm
    cases hm
  | seq _ _ ihr iht =>
    intro m hm
    rcases List.mem_append.mp hm with hm | hm
    · obtain ⟨r', d, hg, hacc⟩ := ihr m hm
      exact ⟨r', d, List.mem_append_left _ hg, hacc⟩
    · obtain ⟨r', d, hg, hacc⟩ := iht m hm
      exact ⟨r', d, List.mem_append_right _ hg, hacc⟩
  | optNone =>
    intro m hm
    cases hm
  | optSome _ ih => exact ih
  | starNil =>
    intro m hm
    cases hm
  | starCons _ _ ihr iht => exact fun m hm => (List.mem_append.mp hm).elim (ihr m) (iht m)
  | lazyNil =>
    intro m hm
    cases hm
  | lazyCons _ _ ihr iht => exact fun m hm => (List.mem_append.mp hm).elim (ihr m) (iht m)
  | @group g r u c hacc ih =>
    intro m hm
    rcases List.mem_append.mp hm with hm | hm
    · obtain ⟨r', d, hg, hacc'⟩ := ih m hm
      exact ⟨r', d, List.mem_append_left _ hg, hacc'⟩
    · obtain rfl := List.mem_singleton.mp hm
      exact ⟨r, c, List.mem_append_right _ (List.mem_singleton.mpr rfl), hacc⟩

/-- A word of a group is captured. -/
theorem Accepts.group_mem {g : G} {r : Regex G α} {u : List α} {c : Captures G α}
    (h : Accepts (.group g r) u c) : (g, u) ∈ c := by
  rcases h with ⟨⟩ | ⟨hacc⟩
  exact List.mem_append_right _ (List.mem_singleton.mpr rfl)

/-- What a group captured last is among the captures. -/
theorem Captures.mem_of_get? [DecidableEq G] {c : Captures G α} {g : G} {v : List α}
    (h : c.get? g = some v) : (g, v) ∈ c := by
  obtain ⟨⟨g', v'⟩, hlast, rfl⟩ := Option.map_eq_some_iff.mp h
  obtain ⟨hmem, hg⟩ := List.mem_filter.mp (List.mem_of_getLast? hlast)
  obtain rfl : g' = g := of_decide_eq_true hg
  exact hmem

/-- A group that captured something captured something last. -/
theorem Captures.get?_of_mem [DecidableEq G] {c : Captures G α} {g : G} {v : List α}
    (h : (g, v) ∈ c) : ∃ v', c.get? g = some v' := by
  have hmem : (g, v) ∈ c.filter fun capture => capture.1 = g :=
    List.mem_filter.mpr ⟨h, decide_eq_true rfl⟩
  rcases hlast : (c.filter fun capture => capture.1 = g).getLast? with _ | m
  · rw [List.getLast?_eq_none_iff.mp hlast] at hmem
    cases hmem
  · exact ⟨m.2, by rw [Captures.get?, hlast]; rfl⟩

/-- All letters of the expression have `q`. -/
def Within (q : α → Prop) : Regex G α → Prop
  | .char p => ∀ a, p a = true → q a
  | .seq r t => r.Within q ∧ t.Within q
  | .opt r | .star r | .lazyStar r | .group _ r => r.Within q

/-- Then all letters of its words have it. -/
theorem Accepts.within {q : α → Prop} {r : Regex G α} {u : List α} {c : Captures G α}
    (h : Accepts r u c) (hr : r.Within q) : ∀ a ∈ u, q a := by
  induction h with
  | @char p a ha =>
    intro b hb
    obtain rfl := List.mem_singleton.mp hb
    exact hr b ha
  | seq _ _ ihr iht => exact fun a ha => (List.mem_append.mp ha).elim (ihr hr.1 a) (iht hr.2 a)
  | optNone =>
    intro a ha
    cases ha
  | optSome _ ih => exact ih hr
  | starNil =>
    intro a ha
    cases ha
  | starCons _ _ ihr iht => exact fun a ha => (List.mem_append.mp ha).elim (ihr hr a) (iht hr a)
  | lazyNil =>
    intro a ha
    cases ha
  | lazyCons _ _ ihr iht => exact fun a ha => (List.mem_append.mp ha).elim (ihr hr a) (iht hr a)
  | group _ ih => exact ih hr

/-! ## The first way

Rules for the first way alone. For a sequence it is not enough that both parts have a first way: the
rest has to match behind the one that was chosen, or the matcher goes back. -/

/-- The first way in which `r` matches at the start of `s`. -/
def First (r : Regex G α) (s : List α) (c : Captures G α) (rest : List α) : Prop :=
  r.first s = some (c, rest)

/-- The first way is the head of the list. -/
theorem First.paths_eq {r : Regex G α} {s rest : List α} {c : Captures G α}
    (h : First r s c rest) : ∃ later, r.paths s = (c, rest) :: later :=
  List.head?_eq_some_iff.mp h

/-- The head of the list is the first way. -/
theorem First.of_paths {r : Regex G α} {s rest : List α} {c : Captures G α}
    (later : List (Captures G α × List α)) (h : r.paths s = (c, rest) :: later) :
    First r s c rest := by
  unfold First first
  rw [h, List.head?_cons]

/-- A sequence whose ways up to one of the first part fail in the second part. -/
theorem First.seq_of_split {r t : Regex G α} {s s' rest : List α} {c d : Captures G α}
    {before after : List (Captures G α × List α)}
    (hr : r.paths s = before ++ (c, s') :: after) (hbefore : ∀ m ∈ before, t.paths m.2 = [])
    (ht : First t s' d rest) : First (.seq r t) s (c ++ d) rest := by
  obtain ⟨later, hlater⟩ := ht.paths_eq
  have hnone : (before.flatMap fun m => join m.1 (t.paths m.2)) = [] := by
    rw [List.flatMap_eq_nil_iff]
    intro m hm
    rw [hbefore m hm]
    rfl
  refine First.of_paths (join c later ++ after.flatMap fun m => join m.1 (t.paths m.2)) ?_
  rw [paths, hr, List.flatMap_append, hnone, List.nil_append, List.flatMap_cons, hlater]
  rfl

/-- **A sequence**: its first way is the first way of each part, if there is one. -/
theorem First.seq {r t : Regex G α} {s s' rest : List α} {c d : Captures G α}
    (hr : First r s c s') (ht : First t s' d rest) : First (.seq r t) s (c ++ d) rest := by
  obtain ⟨later, hlater⟩ := hr.paths_eq
  have hsplit : r.paths s = [] ++ (c, s') :: later := hlater
  exact First.seq_of_split hsplit (fun m hm => by cases hm) ht

/-- The first way of a letter. -/
theorem First.char {p : α → Bool} {a : α} {s : List α} (ha : p a = true) :
    First (.char p : Regex G α) (a :: s) [] s := by
  refine First.of_paths [] ?_
  rw [paths, if_pos ha]

/-- The first way of a group. -/
theorem First.group {g : G} {r : Regex G α} {u s : List α} {c : Captures G α}
    (h : First r (u ++ s) c s) : First (.group g r) (u ++ s) (c ++ [(g, u)]) s := by
  obtain ⟨later, hlater⟩ := h.paths_eq
  refine First.of_paths (later.map fun m =>
    (m.1 ++ [(g, (u ++ s).take ((u ++ s).length - m.2.length))], m.2)) ?_
  rw [paths, hlater, List.map_cons, List.length_append, Nat.add_sub_cancel, List.take_left]

/-- An optional part that matches. -/
theorem First.opt {r : Regex G α} {s rest : List α} {c : Captures G α} (h : First r s c rest) :
    First (.opt r) s c rest := by
  obtain ⟨later, hlater⟩ := h.paths_eq
  refine First.of_paths (later ++ [([], s)]) ?_
  rw [paths, hlater, List.cons_append]

/-- An optional part that does not match. -/
theorem First.opt_none {r : Regex G α} {s : List α} (h : r.paths s = []) :
    First (.opt r) s [] s := by
  refine First.of_paths [] ?_
  rw [paths, h, List.nil_append]

/-- More rounds than letters are not tried. -/
theorem rounds_eq (ways : List α → List (Captures G α × List α)) :
    ∀ (n m : ℕ) (s : List α), s.length ≤ n → s.length ≤ m → rounds ways n s = rounds ways m s := by
  intro n
  induction n with
  | zero =>
    intro m s hn hm
    obtain rfl : s = [] := List.length_eq_zero_iff.mp (by omega)
    rcases m with _ | m
    · rfl
    · have hnone : (ways []).filter (fun m => m.2.length < ([] : List α).length) = [] := by
        simp
      rw [rounds, rounds, hnone]
      rfl
  | succ n ih =>
    intro m s hn hm
    rcases m with _ | m
    · obtain rfl : s = [] := List.length_eq_zero_iff.mp (by omega)
      have hnone : (ways []).filter (fun m => m.2.length < ([] : List α).length) = [] := by
        simp
      rw [rounds, rounds, hnone]
      rfl
    · rw [rounds, rounds]
      congr 1
      refine List.flatMap_congr fun w hw => ?_
      have hlt : w.2.length < s.length := of_decide_eq_true (List.mem_filter.mp hw).2
      rw [ih m w.2 (by omega) (by omega)]

/-- **One more round** of a greedy repetition. -/
theorem First.star {r : Regex G α} {s s' rest : List α} {c d : Captures G α}
    (hr : First r s c s') (hlt : s'.length < s.length) (hstar : First (.star r) s' d rest) :
    First (.star r) s (c ++ d) rest := by
  obtain ⟨later, hlater⟩ := hr.paths_eq
  obtain ⟨more, hmore⟩ := hstar.paths_eq
  obtain ⟨n, hn⟩ : ∃ n, s.length = n + 1 := ⟨s.length - 1, by omega⟩
  have hround : rounds r.paths n s' = (d, rest) :: more := by
    rw [rounds_eq r.paths n s'.length s' (by omega) (le_refl _)]
    exact hmore
  refine First.of_paths (join c more ++
    ((later.filter fun m => m.2.length < s.length).flatMap fun m => join m.1 (rounds r.paths n m.2))
      ++ [([], s)]) ?_
  unfold paths
  rw [show rounds r.paths s.length s = rounds r.paths (n + 1) s by rw [hn], rounds, hlater,
    List.filter_cons_of_pos (by simpa using hlt), List.flatMap_cons, hround]
  rfl

/-- No further round. -/
theorem First.stop {r : Regex G α} {s : List α} (h : r.paths s = []) : First (.star r) s [] s := by
  refine First.of_paths [] ?_
  rw [paths]
  rcases hn : s.length with _ | n
  · rfl
  · rw [rounds, h]
    rfl

/-- A lazy repetition stops at once. -/
theorem First.lazy {r : Regex G α} {s : List α} : First (.lazyStar r) s [] s := by
  unfold First first paths
  rcases s.length with _ | n
  · rfl
  · rfl

/-- The ways of a greedy repetition of letters: those that read on, and then all of `u`, and then
    those that read less. -/
theorem paths_star_char {p : α → Bool} (u s : List α) (hu : ∀ a ∈ u, p a = true) :
    ∃ before after, (Regex.char p : Regex G α).star.paths (u ++ s) = before ++ ([], s) :: after ∧
      ∀ m ∈ before, ∃ v, v ≠ [] ∧ (∀ a ∈ v, p a = true) ∧ s = v ++ m.2 := by
  have hrec : ∀ (a : α) (s : List α), p a = true →
      (Regex.char p : Regex G α).star.paths (a :: s)
        = (Regex.char p : Regex G α).star.paths s ++ [([], a :: s)] := by
    intro a s ha
    rw [paths, List.length_cons, rounds, paths, if_pos ha,
      List.filter_cons_of_pos (by simp), List.filter_nil, List.flatMap_cons, List.flatMap_nil,
      List.append_nil]
    congr 1
    show join [] _ = _
    simp [join, paths]
  induction u with
  | nil =>
    -- reading on from the start of `s`
    induction s with
    | nil => exact ⟨[], [], rfl, fun m hm => by cases hm⟩
    | cons a s ih =>
      by_cases ha : p a = true
      · obtain ⟨before, after, hpaths, hbefore⟩ := ih
        refine ⟨before ++ ([], s) :: after, [], ?_, fun m hm => ?_⟩
        · rw [List.nil_append, hrec a s ha]
          rw [List.nil_append] at hpaths
          rw [hpaths]
        · have hmem : m ∈ (Regex.char p : Regex G α).star.paths s := by
            rw [List.nil_append] at hpaths
            rw [hpaths]
            exact hm
          obtain ⟨v, hv, hacc⟩ := paths_sound _ s m hmem
          obtain ⟨hall, -⟩ := hacc.star_char
          refine ⟨a :: v, List.cons_ne_nil _ _, fun b hb => ?_, by rw [hv, List.cons_append]⟩
          rcases List.mem_cons.mp hb with rfl | hb
          · exact ha
          · exact hall b hb
      · refine ⟨[], [], ?_, fun m hm => by cases hm⟩
        rw [List.nil_append, paths, List.length_cons, rounds, paths, if_neg ha]
        rfl
  | cons a u ih =>
    obtain ⟨before, after, hpaths, hbefore⟩ := ih fun b hb => hu b (List.mem_cons_of_mem _ hb)
    refine ⟨before, after ++ [([], a :: (u ++ s))], ?_, hbefore⟩
    rw [List.cons_append, hrec a _ (hu a (List.mem_cons_self ..)), hpaths, List.append_assoc,
      List.cons_append]

/-- The same in a group. -/
theorem paths_group_star_char {p : α → Bool} (g : G) (u s : List α) (hu : ∀ a ∈ u, p a = true) :
    ∃ before after, (Regex.group g (.star (.char p))).paths (u ++ s)
        = before ++ ([(g, u)], s) :: after ∧
      ∀ m ∈ before, ∃ v, v ≠ [] ∧ (∀ a ∈ v, p a = true) ∧ s = v ++ m.2 := by
  obtain ⟨before, after, hpaths, hbefore⟩ := paths_star_char (G := G) u s hu
  refine ⟨_, _, by
    rw [paths, hpaths, List.map_append, List.map_cons, List.length_append, Nat.add_sub_cancel,
      List.take_left, List.nil_append], fun m hm => ?_⟩
  obtain ⟨m', hm', rfl⟩ := List.mem_map.mp hm
  exact hbefore m' hm'

/-- A greedy repetition of letters reads as far as it can. -/
theorem First.star_char {p : α → Bool} {u s : List α} (hu : ∀ a ∈ u, p a = true)
    (hs : ∀ a ∈ s.head?, p a = false) : First (.star (.char p) : Regex G α) (u ++ s) [] s := by
  obtain ⟨before, after, hpaths, hbefore⟩ := paths_star_char (G := G) u s hu
  rcases before with _ | ⟨m, before⟩
  · exact First.of_paths _ hpaths
  · -- a way that reads on reads the letter that `p` does not have
    obtain ⟨v, hv, hall, rfl⟩ := hbefore m (List.mem_cons_self ..)
    rcases v with _ | ⟨a, v⟩
    · exact absurd rfl hv
    · have hno := hs a rfl
      rw [hall a (List.mem_cons_self ..)] at hno
      cases hno

/-- The same for at least one letter. -/
theorem First.plus_char {p : α → Bool} {u s : List α} (hne : u ≠ []) (hu : ∀ a ∈ u, p a = true)
    (hs : ∀ a ∈ s.head?, p a = false) : First (plus (.char p) : Regex G α) (u ++ s) [] s := by
  rcases u with _ | ⟨a, u⟩
  · exact absurd rfl hne
  · exact First.seq (First.char (hu a (List.mem_cons_self ..)))
      (First.star_char (fun b hb => hu b (List.mem_cons_of_mem _ hb)) hs)

/-! ## All matches

Each search begins where the last one ended. -/

/-- More places than letters, and one, are not looked at. -/
theorem matchesFrom_eq (r : Regex G α) :
    ∀ (n m : ℕ) (s : List α), s.length < n → s.length < m → r.matchesFrom n s = r.matchesFrom m s := by
  intro n
  induction n with
  | zero =>
    intro m s hn _
    omega
  | succ n ih =>
    intro m s hn hm
    obtain ⟨m, rfl⟩ : ∃ k, m = k + 1 := ⟨m - 1, by omega⟩
    rcases s with _ | ⟨a, s⟩
    · rfl
    · rw [List.length_cons] at hn hm
      rw [matchesFrom, matchesFrom]
      rcases r.first (a :: s) with _ | ⟨c, rest⟩
      · exact ih m s (by omega) (by omega)
      · have hlen : (if rest.length < (a :: s).length then rest else s).length < s.length + 1 := by
          split
          · assumption
          · omega
        show c :: _ = c :: _
        rw [ih m _ (by omega) (by omega)]

/-- A match, and then the matches behind it. -/
theorem First.findAll {r : Regex G α} {s rest : List α} {c : Captures G α} (h : First r s c rest)
    (hlt : rest.length < s.length) : r.findAll s = c :: r.findAll rest := by
  rcases s with _ | ⟨a, s⟩
  · simp at hlt
  · have hfirst : r.first (a :: s) = some (c, rest) := h
    unfold Regex.findAll
    rw [matchesFrom, hfirst]
    show c :: r.matchesFrom _ (if rest.length < (a :: s).length then rest else s) = _
    rw [if_pos hlt, matchesFrom_eq r _ (rest.length + 1) rest (by simpa using hlt) (by omega)]

/-- No match at the first letter. -/
theorem findAll_skip {r : Regex G α} {a : α} {s : List α} (h : r.paths (a :: s) = []) :
    r.findAll (a :: s) = r.findAll s := by
  have hfirst : r.first (a :: s) = none := by
    unfold first
    rw [h]
    rfl
  unfold findAll
  rw [List.length_cons, matchesFrom, hfirst]

/-- Every match in `s` reads a word of the expression. -/
theorem matchesFrom_sound {r : Regex G α} :
    ∀ (n : ℕ) (s : List α), ∀ c ∈ r.matchesFrom n s, ∃ u, Accepts r u c := by
  intro n
  induction n with
  | zero =>
    intro s c hc
    cases hc
  | succ n ih =>
    intro s c hc
    rcases s with _ | ⟨a, s⟩
    · obtain ⟨m, hm, rfl⟩ := List.mem_map.mp hc
      obtain ⟨u, -, hacc⟩ := paths_sound r [] m (List.mem_of_head? (Option.mem_toList.mp hm))
      exact ⟨u, hacc⟩
    · rw [matchesFrom] at hc
      rcases hfirst : r.first (a :: s) with _ | ⟨d, rest⟩
      · rw [hfirst] at hc
        exact ih s c hc
      · rw [hfirst] at hc
        rcases List.mem_cons.mp hc with rfl | hc
        · obtain ⟨u, -, hacc⟩ := paths_sound r (a :: s) (c, rest) (List.mem_of_head? hfirst)
          exact ⟨u, hacc⟩
        · exact ih _ c hc

end Regex
