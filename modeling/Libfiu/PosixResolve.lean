/-
  How a wrapper finds its original, which may need other wrappers.

  The original is looked up when it is needed for the first time, by `libc_symbol`, which calls `dlsym`,
  which calls functions that are wrapped as well (`calloc` and others).  Those look up THEIR originals, in
  any order and mutual pattern.

  1. **One call** (`resolveLogic`, `top_returns`) — a wrapper that begins with `mkwrap_top` calls
     `libc_symbol` only if its original was neither resolved nor being resolved when it was entered, and
     while the call is under way it says so in `_fiu_in_init`.

  2. **The measure** (`pending`) — the wrappers whose original is neither resolved nor being resolved.  A
     wrapper that is entered while another one is at work makes no foreign call that calls wrappers but
     `libc_symbol`, and for that one pending wrapper less is left.

  3. **Trees of calls** (`resolution_terminates`) — so whatever the foreign code calls, every call
     returns, with the counters as they were, and no wrapper is being resolved twice at a time.

  That looking up an original comes to an end is not obvious, because the program that looks it up
  is itself one of those that are called meanwhile. What stops the recursion is that a wrapper notes
  down, before it calls `dlsym`, that it is at it; when it is entered again before that is over, it
  gives up at once with an error, and asks nobody.
-/
import Libfiu.PosixRecursion
import Libfiu.PosixDirectives
import Libfiu.Lib.Scripts

namespace Libfiu

namespace Posix

open Calls

/-! ## The wrappers

All wrappers but `clearerr` begin with `mkwrap_top`, and are told apart by the function whose
original they call. -/

/-- The wrapper begins with `mkwrap_top`. -/
def Wrapper.isTop : Wrapper → Bool
  | .generated .. | .ferror | .fclose => true
  | _ => false

/-- The function whose original it calls. -/
def Wrapper.name : Wrapper → String
  | .generated f .. => f.name
  | .variadic v => v.nvname
  | .open => "open"
  | .open64 => "open64"
  | .ferror => "ferror"
  | .fclose => "fclose"
  | .clearerr => "clearerr"

/-- Under what the `static` variables of a wrapper are. -/
def wrapperKey (w : Source × Wrapper) : String × String := (w.1.file, w.2.name)

/-- The wrapper that is called. -/
def WrapperCall.callee (p : WrapperCall) : Source × Wrapper := (p.src, p.wrapper)

/-! ## One call

An invariant for the macros again: until the call returns, its original is the only one that it
resolves. -/

/-- What was resolved stays resolved. -/
def Grows (s t : Tls) : Prop := ∀ k, s.orig k ≠ 0 → t.orig k ≠ 0

/-- Nothing changed. -/
theorem Grows.refl (s : Tls) : Grows s s := fun _ h => h

/-- One after the other. -/
theorem Grows.trans {s t u : Tls} (h : Grows s t) (h' : Grows t u) : Grows s u :=
  fun k hk => h' k (h k hk)

/-- The variables `_fiu_in_init` during a foreign call of a wrapper that found them at `inInit`. -/
def inInitAt (inInit : String × String → ℤ) (key : String × String) : Ext → String × String → ℤ
  | .libcSymbol _ => Function.update inInit key (inInit key + 1)
  | _ => inInit

/-- Inside of a call that was entered at `entry`, with the counter at `n`; `U` if a failure may have been
    injected. -/
structure InCall (entry : Tls) (key : String × String) (U : Prop) (known : Bool) (n : ℤ) (t : Tls) :
    Prop where
  called : t.fiuCalled = n
  inInit : t.inInit = entry.inInit
  grows : Grows entry t
  orig : known = true → U ∨ t.orig key ≠ 0

/-- At a foreign call of a wrapper that was entered at `entry`. -/
structure AtCall (entry : Tls) (key : String × String) (e : Ext) (t : Tls) : Prop where
  called : 0 < t.fiuCalled
  inInit : t.inInit = inInitAt entry.inInit key e
  grows : Grows entry t
  /-- The original is looked up if it is neither resolved nor being resolved. -/
  symbol : ∀ name, e = .libcSymbol name → entry.orig key = 0 ∧ entry.inInit key = 0
  /-- A nested call makes no other foreign calls. -/
  nested : entry.fiuCalled ≠ 0 → (∃ name, e = .libcSymbol name) ∨ ∃ name args, e = .orig name args

/-- It is a call of `libc_symbol`. -/
def Ext.isSymbol : Ext → Bool
  | .libcSymbol _ => true
  | _ => false

/-- What a foreign call may answer: `libc_symbol` an address, and `fiu_fail` zero if `quiet`. -/
def Ext.Answers (quiet : Prop) (r : ℤ) : Ext → Prop
  | .libcSymbol _ => r ≠ 0
  | .fiuFail _ => quiet → r = 0
  | _ => True

/-- What a foreign call keeps. -/
structure KeptBy (quiet : Prop) (e : Ext) (t : Tls) (r : ℤ) (t' : Tls) : Prop where
  called : t'.fiuCalled = t.fiuCalled
  inInit : t'.inInit = t.inInit
  grows : Grows t t'
  answers : e.Answers quiet r

/-- At the end of a call that was entered at `entry`: the counters are back, and the original is
    resolved unless it is being resolved further below, or a failure was injected. -/
structure Returned (entry : Tls) (key : String × String) (U : Prop) (t : Tls) : Prop where
  called : t.fiuCalled = entry.fiuCalled
  inInit : t.inInit = entry.inInit
  grows : Grows entry t
  resolved : entry.inInit key = 0 → U ∨ t.orig key ≠ 0

/-- A failure may be injected into a call that was entered at `entry`. -/
def Injects (quiet : Prop) (entry : Tls) : Prop := entry.fiuCalled = 0 ∧ ¬ quiet

/-- **Resolving the original**, as an invariant of the macros, of a call that is not entered with
    negative counters. -/
theorem resolveLogic {src : Source} {name : String} (quiet : Prop) {entry : Tls}
    (hcalled : 0 ≤ entry.fiuCalled)
    (hidle : entry.fiuCalled = 0 → entry.inInit (src.file, name) = 0) :
    MacroLogic src name entry.fiuCalled (fun n => 0 < n) (Injects quiet entry)
      (entry.fiuCalled = 0) (AtCall entry (src.file, name)) (KeptBy quiet)
      (InCall entry (src.file, name) (Injects quiet entry))
      (fun t => t.inInit (src.file, name) = 0)
      (Returned entry (src.file, name) (Injects quiet entry)) where
  next hn := by omega
  first _ := zero_lt_one
  nested h := by omega
  counted ht := ht.called
  errno ht := ⟨ht.called, ht.inInit, ht.grows, ht.orig⟩
  inc ht := ⟨congrArg (· + 1) ht.called, ht.inInit, ht.grows, ht.orig⟩
  dec ht := ⟨sub_eq_of_eq_add ht.called, ht.inInit, ht.grows, ht.orig⟩
  known ht h := ⟨ht.called, ht.inInit, ht.grows, fun _ => h⟩
  found ht := ht.orig rfl
  body h := h
  -- a foreign call from the body: no `dlsym`, and nested it is the original
  ask {b n t e} hn he hB ht := by
    have hinit : inInitAt entry.inInit (src.file, name) e = entry.inInit := by
      cases e with
      | libcSymbol symbol => cases he
      | _ => rfl
    refine ⟨⟨ht.called.symm ▸ hn, ht.inInit.trans hinit.symm, ht.grows, ?_, ?_⟩, ?_⟩
    · rintro symbol rfl
      cases he
    · intro hnested
      obtain ⟨args, rfl⟩ := hB.resolve_left hnested
      exact Or.inr ⟨_, _, rfl⟩
    · intro r t' h
      exact ⟨h.called.trans ht.called, h.inInit.trans ht.inInit, ht.grows.trans h.grows,
        fun hb => (ht.orig hb).imp_right (h.grows _)⟩
  -- only here is it left open whether the original is known
  fiuFail {t p} hentry ht := by
    refine ⟨⟨?_, ht.inInit, ht.grows, ?_, fun h => absurd hentry h⟩, ?_⟩
    · rw [ht.called]
      exact zero_lt_one
    · intro symbol h
      cases h
    · intro r t' h
      refine ⟨?_, h.called.trans ht.called, h.inInit.trans ht.inInit, ht.grows.trans h.grows,
        fun hb => by cases hb⟩
      by_cases hquiet : quiet
      · exact Or.inr (h.answers hquiet)
      · exact Or.inl ⟨hentry, hquiet⟩
  outermost hentry ht := (congrFun ht.inInit _).trans (hidle hentry)
  idle _ h := h
  -- `mkwrap_init`: the original is not known, and not being resolved
  init {n t} hn ht horig hF := by
    have hentry : entry.orig (src.file, name) = 0 := by
      by_contra h
      exact ht.grows _ h horig
    have hfree : entry.inInit (src.file, name) = 0 := by rw [← ht.inInit, hF]
    refine ⟨⟨?_, ?_, ht.grows, fun _ _ => ⟨hentry, hfree⟩, fun _ => Or.inl ⟨_, rfl⟩⟩, ?_⟩
    · show 0 < t.fiuCalled + 1
      rw [ht.called]
      omega
    · show Function.update t.inInit _ _ = _
      rw [ht.inInit]
      rfl
    · -- the address is stored, and both counters are lowered again
      intro addr t' h
      refine ⟨?_, ?_, ?_, fun _ => Or.inr ?_⟩
      · show t'.fiuCalled - 1 = n
        rw [h.called, ← ht.called]
        exact add_sub_cancel_right t.fiuCalled 1
      · show Function.update t'.inInit (src.file, name) (t'.inInit (src.file, name) + -1) = _
        have hin : t'.inInit = Function.update t.inInit (src.file, name)
            (t.inInit (src.file, name) + 1) := h.inInit
        rw [hin, Function.update_self, Function.update_idem, add_neg_cancel_right,
          Function.update_eq_self, ht.inInit]
      · intro k hk
        show Function.update t'.orig (src.file, name) addr k ≠ 0
        by_cases hkey : k = (src.file, name)
        · subst hkey
          rw [Function.update_self]
          exact h.answers
        · rw [Function.update_of_ne hkey]
          exact h.grows k (ht.grows k hk)
      · show Function.update t'.orig (src.file, name) addr (src.file, name) ≠ 0
        rw [Function.update_self]
        exact h.answers
  done ht := ⟨ht.called, ht.inInit, ht.grows, fun _ => ht.orig rfl⟩
  busy ht h := ⟨ht.called, ht.inInit, ht.grows, fun hentry =>
    absurd ((congrFun ht.inInit _).trans hentry) h⟩

/-- **A wrapper that begins with `mkwrap_top`, alone.** -/
theorem top_returns {p : WrapperCall} (htop : p.wrapper.isTop = true) {quiet : Prop} {entry : Tls}
    (hcalled : 0 ≤ entry.fiuCalled)
    (hidle : entry.fiuCalled = 0 → entry.inInit (wrapperKey p.callee) = 0) :
    (p.code entry).Lasts (Injects quiet entry) (AtCall entry (wrapperKey p.callee)) (KeptBy quiet)
      fun _ => Returned entry (wrapperKey p.callee) (Injects quiet entry) := by
  obtain ⟨src, wrapper, args⟩ := p
  have hlogic := resolveLogic quiet hcalled hidle
  have hstart : InCall entry (src.file, wrapper.name) (Injects quiet entry) false entry.fiuCalled
      entry := ⟨rfl, rfl, Grows.refl entry, fun h => by cases h⟩
  cases wrapper with
  | generated f code h =>
    obtain ⟨ms, rfl, hms⟩ := generateTo_isBody h
    exact hlogic.lasting_top _ _ (fun hentry l => hlogic.lasting_body hentry hms l) _ entry hstart
  | ferror =>
    have hms : IsBody "ferror" [.bodyHardcoded "posix/stdio/error/ferror" "1", .ferrorBottom] :=
      Or.inr ⟨trivial, Or.inl rfl⟩
    exact hlogic.lasting_top _ _ (fun hentry l => hlogic.lasting_body hentry hms l) _ entry hstart
  | fclose =>
    have hms : IsBody "fclose" (fcloseMacros.drop 1) :=
      Or.inr ⟨trivial, Or.inr ⟨trivial, Or.inr ⟨trivial, Or.inl rfl⟩⟩⟩
    exact hlogic.lasting_top _ _ (fun hentry l => hlogic.lasting_body hentry hms l) _ entry hstart
  | _ => cases htop

/-! ## The measure

Each level of the recursion resolves another original, and while it does, that one is no longer
pending. So no tree of calls is deeper than there are wrappers. -/

/-- The wrappers among `keys` whose original is neither resolved nor being resolved. -/
def pending (keys : Finset (String × String)) (t : Tls) : ℕ :=
  (keys.filter fun k => t.orig k = 0 ∧ t.inInit k = 0).card

variable {keys : Finset (String × String)}

/-- No more than there are. -/
theorem pending_le_card (keys : Finset (String × String)) (t : Tls) : pending keys t ≤ keys.card :=
  Finset.card_filter_le _ _

/-- What foreign code may do in addition makes no wrapper pending. -/
theorem pending_mono (keys : Finset (String × String)) {t u : Tls} (hgrows : Grows t u)
    (hin : u.inInit = t.inInit) : pending keys u ≤ pending keys t := by
  apply Finset.card_le_card
  intro k hk
  obtain ⟨hmem, horig, hidle⟩ := Finset.mem_filter.mp hk
  refine Finset.mem_filter.mpr ⟨hmem, ?_, hin ▸ hidle⟩
  by_contra h
  exact hgrows k h horig

/-- **While a wrapper resolves its original, it is not pending**, and it was when it was entered. -/
theorem pending_lt {entry t : Tls} {key : String × String} (hkey : key ∈ keys) {name : String}
    (ht : AtCall entry key (.libcSymbol name) t) : pending keys t < pending keys entry := by
  obtain ⟨horig, hidle⟩ := ht.symbol name rfl
  have hin : t.inInit = Function.update entry.inInit key (entry.inInit key + 1) := ht.inInit
  apply Finset.card_lt_card
  rw [Finset.ssubset_iff_of_subset]
  · refine ⟨key, Finset.mem_filter.mpr ⟨hkey, horig, hidle⟩, fun hmem => ?_⟩
    have hbusy : t.inInit key = 0 := (Finset.mem_filter.mp hmem).2.2
    rw [hin, Function.update_self, hidle] at hbusy
    cases hbusy
  · intro k hk
    obtain ⟨hmem, hk₁, hk₂⟩ := Finset.mem_filter.mp hk
    refine Finset.mem_filter.mpr ⟨hmem, ?_, ?_⟩
    · by_contra h
      exact ht.grows k h hk₁
    · by_cases hkk : k = key
      · exact hkk ▸ hidle
      · rwa [hin, Function.update_of_ne hkk] at hk₂

/-! ## Trees of calls

A wrapper may be called with room for as many wrappers as are pending. The contract is proved for
one wrapper, with the calls that are made from within it taken as met; `Lib/Scripts` makes the tree
of it. -/

/-- The variables of a thread: the counters are not negative, and an original is being resolved at most
    once, and only inside of a wrapper. -/
structure Coherent (t : Tls) : Prop where
  called : 0 ≤ t.fiuCalled
  inInit : ∀ k, t.inInit k = 0 ∨ (t.inInit k = 1 ∧ t.fiuCalled ≠ 0)

/-- The originals that are being resolved in the foreign calls under way. -/
def resolving (path : List (WrapperCall × Ext)) : List (String × String) :=
  (path.filter fun c => c.2.isSymbol).map fun c => wrapperKey c.1.callee

/-- The foreign calls under way account for the variables `_fiu_in_init`, over their values in `base`. -/
structure Accounts (ws : List (Source × Wrapper)) (base : Tls) (path : List (WrapperCall × Ext))
    (t : Tls) : Prop where
  coherent : Coherent t
  inInit : ∀ k, t.inInit k = base.inInit k + (resolving path).count k
  wrappers : ∀ k ∈ resolving path, k ∈ ws.map wrapperKey

/-- A wrapper leaves the counters as they were, and its original is resolved, unless it is being resolved
    further below or a failure was injected. -/
structure Resolves (quiet : Prop) (p : WrapperCall) (entry exit : Tls) : Prop where
  called : exit.fiuCalled = entry.fiuCalled
  inInit : exit.inInit = entry.inInit
  resolved : entry.inInit (wrapperKey p.callee) = 0 → (entry.fiuCalled ≠ 0 ∨ quiet) →
    exit.orig (wrapperKey p.callee) ≠ 0

/-- What is to hold of an event: no original is being resolved twice, so there are at most as many as
    wrappers; and every wrapper that returns leaves the counters as they were. -/
def WellNested (ws : List (Source × Wrapper)) (quiet : Prop) : Event WrapperCall Ext Tls ℤ → Prop
  | .calls path t => (resolving path).Nodup ∧ (resolving path).length ≤ ws.length ∧
      (∀ k ∈ resolving path, k ∈ ws.map wrapperKey) ∧ ∀ k, t.inInit k = 0 ∨ t.inInit k = 1
  | .returns _ p entry _ exit => Resolves quiet p entry exit

variable {ws : List (Source × Wrapper)} {quiet : Prop} {base : Tls}

/-- A wrapper that is being resolved twice would have its counter at 2. -/
theorem Accounts.wellNested {path : List (WrapperCall × Ext)} {t : Tls} (hbase : Coherent base)
    (ht : Accounts ws base path t) : WellNested ws quiet (.calls path t) := by
  have hnodup : (resolving path).Nodup := by
    rw [List.nodup_iff_count_le_one]
    intro k
    have hcount := ht.inInit k
    have hin := ht.coherent.inInit k
    have hin₀ := hbase.inInit k
    omega
  refine ⟨hnodup, ?_, ht.wrappers, fun k => (ht.coherent.inInit k).imp_right And.left⟩
  have hlen := (hnodup.subperm ht.wrappers).length_le
  rwa [List.length_map] at hlen

/-- A foreign call that a wrapper makes is accounted for as well. -/
theorem Accounts.call {up : List (WrapperCall × Ext)} {p : WrapperCall} {e : Ext} {entry t : Tls}
    (hentry : Accounts ws base up entry) (hp : p.callee ∈ ws)
    (ht : AtCall entry (wrapperKey p.callee) e t) : Accounts ws base ((p, e) :: up) t := by
  have hpos := ht.called
  cases e with
  | libcSymbol name =>
    obtain ⟨-, hidle⟩ := ht.symbol name rfl
    have hpath : resolving ((p, .libcSymbol name) :: up) = wrapperKey p.callee :: resolving up := rfl
    have hin : t.inInit = Function.update entry.inInit (wrapperKey p.callee)
        (entry.inInit (wrapperKey p.callee) + 1) := ht.inInit
    refine ⟨⟨hpos.le, fun k => ?_⟩, fun k => ?_, ?_⟩
    · by_cases hk : k = wrapperKey p.callee
      · subst hk
        rw [hin, Function.update_self, hidle]
        exact Or.inr ⟨rfl, hpos.ne'⟩
      · rw [hin, Function.update_of_ne hk]
        exact (hentry.coherent.inInit k).imp_right fun h => ⟨h.1, hpos.ne'⟩
    · have hk₀ := hentry.inInit k
      rw [hpath, hin]
      by_cases hk : k = wrapperKey p.callee
      · subst hk
        rw [Function.update_self, List.count_cons_self]
        omega
      · rw [Function.update_of_ne hk, List.count_cons_of_ne (Ne.symm hk)]
        exact hk₀
    · rw [hpath, List.forall_mem_cons]
      exact ⟨List.mem_map_of_mem hp, hentry.wrappers⟩
  | _ =>
    have hin : t.inInit = entry.inInit := ht.inInit
    refine ⟨⟨hpos.le, fun k => ?_⟩, fun k => ?_, hentry.wrappers⟩
    · rw [hin]
      exact (hentry.coherent.inInit k).imp_right fun h => ⟨h.1, hpos.ne'⟩
    · rw [hin]
      exact hentry.inInit k

/-- Foreign code that calls wrappers leaves the accounts as they are. -/
theorem Accounts.of_eq {path : List (WrapperCall × Ext)} {t u : Tls} (ht : Accounts ws base path t)
    (hcalled : u.fiuCalled = t.fiuCalled) (hin : u.inInit = t.inInit) : Accounts ws base path u := by
  refine ⟨⟨?_, fun k => ?_⟩, fun k => ?_, ht.wrappers⟩
  · rw [hcalled]
    exact ht.coherent.called
  · rw [hin, hcalled]
    exact ht.coherent.inInit k
  · rw [hin]
    exact ht.inInit k

/-- A wrapper may be called with room for `d` wrappers inside of each other: one for each pending
    wrapper and itself, and one more outside of all wrappers, where a wrapper also makes other foreign
    calls. -/
structure MayCall (ws : List (Source × Wrapper)) (base : Tls) (d : ℕ) (up : List (WrapperCall × Ext))
    (p : WrapperCall) (t : Tls) : Prop where
  wrapper : p.callee ∈ ws
  accounts : Accounts ws base up t
  room : if t.fiuCalled = 0 then ws.length + 2 ≤ d
    else pending (ws.map wrapperKey).toFinset t + 1 ≤ d

/-- The wrappers of the set may be called during a foreign call, unless it is one of an original; and the
    call answers as it should. -/
def Plays (ws : List (Source × Wrapper)) (quiet : Prop)
    (script : Script WrapperCall Ext ℤ Tls ℤ Foreign) : Prop :=
  ∀ p e up t h, (script (.calls ((p, e) :: up) t :: h)).Meets
    (fun q => q.callee ∈ ws ∧ e.isOrig = false) fun r => e.Answers quiet r

/-- **The contract of the wrappers.** -/
theorem wrapper_contract (htop : ∀ w ∈ ws, w.2.isTop = true)
    {script : Script WrapperCall Ext ℤ Tls ℤ Foreign} (hscript : Plays ws quiet script)
    (hbase : Coherent base) :
    Contract script Foreign.alter WrapperCall.code (MayCall ws base)
      (fun p entry _ t => Returned entry (wrapperKey p.callee) (Injects quiet entry) t)
      (WellNested ws quiet) (Injects quiet) where
  room {up p t} h := by
    have hroom := h.room
    split at hroom <;> omega
  returns {d up p entry a t} _ ht := by
    refine ⟨ht.called, ht.inInit, fun hidle h => (ht.resolved hidle).resolve_left ?_⟩
    rintro ⟨hzero, hnot⟩
    exact h.elim (fun h => h hzero) hnot
  body {d up p entry} hpre := by
    have hcoherent := hpre.accounts.coherent
    have hidle : entry.fiuCalled = 0 → entry.inInit (wrapperKey p.callee) = 0 := fun h =>
      (hcoherent.inInit _).resolve_right fun h' => h'.2 h
    refine ⟨_, _, top_returns (htop _ hpre.wrapper) hcoherent.called hidle, fun e t h ht => ?_⟩
    have haccounts := hpre.accounts.call hpre.wrapper ht
    refine ⟨haccounts.wellNested hbase, _, _,
      fun u => u.fiuCalled = t.fiuCalled ∧ u.inInit = t.inInit ∧ Grows t u,
      hscript p e up t h, ⟨rfl, rfl, Grows.refl t⟩, ?_, ?_⟩
    · rintro q u ⟨hq, horig⟩ ⟨hcalled, hin, hgrows⟩
      have hpos : u.fiuCalled ≠ 0 := hcalled ▸ ht.called.ne'
      refine ⟨⟨hq, haccounts.of_eq hcalled hin, ?_⟩, fun hU => absurd hU.1 hpos, ?_⟩
      · rw [if_neg hpos]
        have hle := pending_mono (ws.map wrapperKey).toFinset hgrows hin
        have hroom := hpre.room
        split at hroom
        · -- outside of all wrappers
          have hcard := pending_le_card (ws.map wrapperKey).toFinset t
          have hlen := List.toFinset_card_le (ws.map wrapperKey)
          rw [List.length_map] at hlen
          omega
        · -- nested: the foreign call is that of `libc_symbol`
          rename_i hnested
          rcases ht.nested hnested with ⟨name, rfl⟩ | ⟨name, args, rfl⟩
          · have hkey : wrapperKey p.callee ∈ (ws.map wrapperKey).toFinset :=
              List.mem_toFinset.mpr (List.mem_map_of_mem hpre.wrapper)
            have hlt := pending_lt hkey ht
            omega
          · cases horig
      · rintro a u' hu'
        exact ⟨hu'.called.trans hcalled, hu'.inInit.trans hin, hgrows.trans hu'.grows⟩
    · rintro r change u hr ⟨hcalled, hin, hgrows⟩
      exact ⟨hcalled, hin, hgrows, hr⟩

/-- **Resolving comes to an end.** `ws` is any set of wrappers that begin with `mkwrap_top`.
    `hscript`: during the foreign calls other than those of originals any of them may be called, any
    number of times, and what is answered is what these calls can answer. `hentry`: the thread is at
    a point where no original is being resolved twice.

    A call of a wrapper of the set returns, with room for two wrappers more than there are inside of
    each other; or else a failure was injected into it and its code is undefined there (`Injects`).
    All along, no original is being resolved twice, and every wrapper that returned left the
    counters as they were and found its original (`WellNested`, `Resolves`). -/
theorem resolution_terminates (ws : List (Source × Wrapper)) (htop : ∀ w ∈ ws, w.2.isTop = true)
    (quiet : Prop) (script : Script WrapperCall Ext ℤ Tls ℤ Foreign) (hscript : Plays ws quiet script)
    (entry : Tls) (hentry : Coherent entry) (p : WrapperCall) (hp : p.callee ∈ ws) :
    ∃ history, (∀ event ∈ history, WellNested ws quiet event) ∧
      ((callAt script Foreign.alter WrapperCall.code (ws.length + 2) [] p entry [] =
          .undefined history ∧ Injects quiet entry) ∨
        ∃ r exit, callAt script Foreign.alter WrapperCall.code (ws.length + 2) [] p entry [] =
          .done r exit history ∧ Resolves quiet p entry exit) := by
  have hcontract := wrapper_contract htop hscript hentry
  have hpre : MayCall ws entry (ws.length + 2) [] p entry := by
    refine ⟨hp, ⟨hentry, fun k => (add_zero _).symm, fun k hk => by cases hk⟩, ?_⟩
    have hcard := pending_le_card (ws.map wrapperKey).toFinset entry
    have hlen := List.toFinset_card_le (ws.map wrapperKey)
    rw [List.length_map] at hlen
    split <;> omega
  have hgood := callAt_good hcontract (ws.length + 2) [] p entry hpre [] fun _ h => by cases h
  cases hout : callAt script Foreign.alter WrapperCall.code (ws.length + 2) [] p entry [] with
  | done r exit history =>
    rw [hout] at hgood
    exact ⟨history, hgood.2, Or.inr ⟨r, exit, rfl, hcontract.returns (a := r) hpre hgood.1⟩⟩
  | undefined history =>
    rw [hout] at hgood
    exact ⟨history, hgood.2, Or.inl ⟨rfl, hgood.1⟩⟩
  | tooDeep =>
    rw [hout] at hgood
    exact hgood.elim

/-! ## A tree of calls

Resolving one function calls the wrappers of others, and its own. -/

def stdioSource : Source := someSource "posix.stdio.c"

def customSource : Source := someSource "posix.custom.c"

/-- Looking up `fgetc` calls `fclose`, and `fgetc` itself; looking up `fclose` calls `ferror`. -/
def dlsymScript : Script WrapperCall Ext ℤ Tls ℤ Foreign
  | .calls ((_, .libcSymbol name) :: _) _ :: _ =>
    if name = "fgetc" then
      .calls ⟨customSource, .fclose, [4096]⟩ fun _ =>
        .calls ⟨stdioSource, fgetcWrapper, [4096]⟩ fun _ => .returns 1000 ⟨0, 0⟩
    else if name = "fclose" then
      .calls ⟨customSource, .ferror, [4096]⟩ fun _ => .returns 1001 ⟨0, 0⟩
    else .returns 1002 ⟨0, 0⟩
  | _ => .returns 0 ⟨0, 0⟩

def dlsymWrappers : List (Source × Wrapper) :=
  [(stdioSource, fgetcWrapper), (customSource, .fclose), (customSource, .ferror)]

theorem resolution_terminates_fgetc :
    ∃ history, (∀ event ∈ history, WellNested dlsymWrappers True event) ∧
      ((callAt dlsymScript Foreign.alter WrapperCall.code 5 []
          ⟨stdioSource, fgetcWrapper, [4096]⟩ Tls.start [] = .undefined history ∧
          Injects True Tls.start) ∨
        ∃ r exit, callAt dlsymScript Foreign.alter WrapperCall.code 5 []
          ⟨stdioSource, fgetcWrapper, [4096]⟩ Tls.start [] = .done r exit history ∧
          Resolves True ⟨stdioSource, fgetcWrapper, [4096]⟩ Tls.start exit) := by
  refine resolution_terminates dlsymWrappers ?_ True dlsymScript ?_ Tls.start ?_
    ⟨stdioSource, fgetcWrapper, [4096]⟩ (List.mem_cons_self ..)
  · intro w hw
    fin_cases hw <;> rfl
  · intro p e up t h
    have hfgetc : (stdioSource, fgetcWrapper) ∈ dlsymWrappers := List.mem_cons_self ..
    have hfclose : (customSource, Wrapper.fclose) ∈ dlsymWrappers :=
      List.mem_cons_of_mem _ (List.mem_cons_self ..)
    have hferror : (customSource, Wrapper.ferror) ∈ dlsymWrappers :=
      List.mem_cons_of_mem _ (List.mem_cons_of_mem _ (List.mem_cons_self ..))
    cases e with
    | libcSymbol name =>
      show Reply.Meets _ _ (if name = "fgetc" then _ else if name = "fclose" then _ else _)
      split
      · exact ⟨⟨hfclose, rfl⟩, fun _ => ⟨⟨hfgetc, rfl⟩, fun _ => show (1000 : ℤ) ≠ 0 by decide⟩⟩
      split
      · exact ⟨⟨hferror, rfl⟩, fun _ => show (1001 : ℤ) ≠ 0 by decide⟩
      · show (1002 : ℤ) ≠ 0
        decide
    | fiuFail name => exact fun _ => rfl
    | _ => trivial
  · exact ⟨le_refl 0, fun _ => Or.inl rfl⟩

end Posix

end Libfiu
