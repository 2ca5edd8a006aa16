/-
  `fiu_init` may be called any number of times, by any threads, before and after a `fork`.

  "It should be safe to call this more than once at any time", its comment says.  Whoever gets
  `enabled_fails_lock` for writing first sets up the library, and everyone after that finds
  `initialized` set.  A set-up that fails, because `pthread_atfork` does, leaves it unset and the table
  behind, so the next call begins anew.  A `fork` while the library is being set up leaves the child
  with the lock of a thread that is not there, so in the child nobody ever gets that far again.

  1. **What a step sets up** (`InitMoves`) — of all that threads do, and `initStep` with the lock;

  2. **The invariant** (`Process.InitOnce`) — a handler is registered when the library is initialized,
     or by the thread that is about to say so; that one has the lock, or had it when the process was
     forked, and then it is not there to say so.  That there is a table then rests on memory for it
     (`A`, any proposition that implies it of every call), since `fiu_init` does not look;

  3. **Once** (`fiu_init_once`) — in every run `atfork_child` is registered once at most; and when the
     library is initialized, it stays so, and no step but those of `fiu_fail`, of the `fiu_enable`
     functions and of `fiu_disable` touches the table.

  A child is a copy at a moment, so it has whatever part of a set-up was done by then. The thread
  that forks is not in `fiu_init` itself, so the child cannot finish a set-up that was under way,
  and cannot begin again, as the lock is held by nobody who is there; so a handler that was
  registered in such a set-up is never registered a second time.
-/
import Libfiu.FiuFork

namespace Libfiu

open Threads

variable {W : Type} {P : Platform} {l : Linker}

/-! ## What `fiu_init` sets up

Four things: `initialized`, the table, the handler and the lock. Most steps touch none of them
(`SameInit`); what the others do is one of a short list (`InitMoves`). -/

/-- The handler is `atfork_child`. -/
def Handler.isAtforkChild : Handler → Bool
  | .atforkChild => true
  | .fifoAtforkChild => false

/-- How often `atfork_child` is registered. -/
def Globals.registered (g : Globals W) : ℕ := g.handlers.countP Handler.isAtforkChild

/-- What `fiu_init` sets up is in `g'` as in `g`. -/
structure Globals.SameInit (g g' : Globals W) : Prop where
  initialized : g'.initialized = g.initialized
  registered : g'.registered = g.registered
  table : g.enabledFails.isSome = true → g'.enabledFails.isSome = true

/-- Where a thread is in `fiu_init`. -/
def Local.stage : Local W → Option InitPc
  | .init pc => some pc
  | .call _ _ => none

/-- The steps of a thread, as far as they set up the library. -/
inductive InitMoves (i : ℕ) (a : LocalChoice W) (g : Globals W) :
    Local W → Globals W → Local W → Prop
  /-- In another call, or outside of the part of `fiu_init` that has the lock. -/
  | other {loc loc' : Local W} {g' : Globals W} (hsame : g.SameInit g')
      (hloc : ∀ pc, loc.stage = some pc → ∃ r, pc = .unlock r ∨ pc = .done r)
      (hloc' : ∀ pc, loc'.stage = some pc → pc.locked = false) :
      InitMoves i a g loc g' loc'
  | wlock {k : RwLock ℕ} (hk : g.enabledFailsLock.wrlock i = some k) :
      InitMoves i a g (.init .wlock) { g with enabledFailsLock := k } (.init .testInitialized)
  | testInitialized :
      InitMoves i a g (.init .testInitialized) g
        (.init (if g.initialized then .unlock 0 else .create))
  | create {garbage : Option ℕ} (ha : a = .malloc garbage) :
      InitMoves i a g (.init .create) { g with enabledFails := garbage.map wtableCreate }
        (.init .register)
  | register :
      InitMoves i a g (.init .register) { g with handlers := g.handlers ++ [.atforkChild] }
        (.init .seed)
  | registerFails : InitMoves i a g (.init .register) g (.init (.unlock (-1)))
  | seed {g' : Globals W} (hset : g'.initialized = true) (hregistered : g'.registered = g.registered)
      (htable : g'.enabledFails = g.enabledFails) : InitMoves i a g (.init .seed) g' (.init (.unlock 0))

/-- Steps of `FiuThreads` leave a table where there is one. -/
theorem Moves.isSome_enabledFails {i : ℕ} {a : Choice W} {s s' : Shared W} {th th' : Thread W}
    {e : Event} (h : Moves P l i s a th e s' th') (hs : s.enabledFails.isSome = true) :
    s'.enabledFails.isSome = true := by
  cases h with
  | get ht hstep => rfl
  | write ht hstep => rfl
  | point hpf hmove htable hpfs =>
    show Option.isSome _ = true
    rw [htable]
    exact hs
  | wrlock hk =>
    show Option.isSome _ = true
    rw [WriteOp.begin_enabledFails]
    exact hs
  | _ => exact hs

/-- A seed is no part of the set-up. -/
theorem Globals.setPrngSeed_sameInit (g : Globals W) (seed : UInt32) : g.SameInit (g.setPrngSeed seed) :=
  ⟨rfl, rfl, id⟩

/-- Each step of `fiu_init` is one of the list. -/
theorem initStep_initMoves {i : ℕ} {a : LocalChoice W} {g g' : Globals W} {pc pc' : InitPc}
    (h : initStep i a g pc = some (g', pc')) : InitMoves i a g (.init pc) g' (.init pc') := by
  cases pc with
  | wlock =>
    obtain ⟨k, hk, h⟩ := Option.bind_eq_some_iff.mp h
    cases h
    exact .wlock hk
  | testInitialized =>
    cases h
    exact .testInitialized
  | create =>
    simp only [initStep] at h
    split at h
    · cases h
      exact .create rfl
    · cases h
  | register =>
    simp only [initStep] at h
    split at h
    · cases h
      exact .register
    · cases h
      exact .registerFails
    · cases h
  | seed =>
    simp only [initStep] at h
    split at h
    · rename_i env usec
      cases h
      -- the environment, then the clock
      have henv : g.registered = (env.elim g g.setPrngSeed).registered ∧
          g.enabledFails = (env.elim g g.setPrngSeed).enabledFails := by
        cases env <;> exact ⟨rfl, rfl⟩
      have hclock : ∀ g : Globals W, (g.prngSeed usec).registered = g.registered ∧
          (g.prngSeed usec).enabledFails = g.enabledFails := by
        intro g
        unfold Globals.prngSeed
        split <;> exact ⟨rfl, rfl⟩
      exact .seed rfl ((hclock _).1.trans henv.1.symm) ((hclock _).2.trans henv.2.symm)
    · cases h
  | unlock r =>
    cases h
    refine .other ⟨rfl, rfl, id⟩ (fun pc hpc => ?_) fun pc hpc => ?_
    · cases hpc
      exact ⟨r, Or.inl rfl⟩
    · cases hpc
      rfl
  | done r => cases h

/-- Each step of a thread is one of the list. -/
theorem localStep_initMoves {i : ℕ} {a : LocalChoice W} {g g' : Globals W} {loc loc' : Local W}
    {e : Event} (h : localStep P l i a g loc = some (e, g', loc')) :
    InitMoves i a g loc g' loc' := by
  -- a thread that is not in `fiu_init`
  have hcall : ∀ {th th' : Thread W} {cache cache' : Section} {g' : Globals W}, g.SameInit g' →
      InitMoves i a g (.call th cache) g' (.call th' cache') := fun hsame =>
    .other hsame (fun _ hpc => by cases hpc) fun _ hpc => by cases hpc
  unfold localStep at h
  split at h
  · rename_i th cache a
    have hthread : ∀ {s : Shared W} {th' : Thread W} {e' : Event},
        threadStep P l i a g.toShared th = some (e', s, th') →
        g.SameInit { g with toShared := s } := fun hstep =>
      ⟨rfl, rfl, (threadStep_moves hstep).isSome_enabledFails⟩
    unfold callStep at h
    split at h
    · split at h
      · obtain ⟨⟨e', s, th'⟩, hstep, h⟩ := Option.bind_eq_some_iff.mp h
        cases h
        exact hcall (hthread hstep)
      · obtain ⟨k, -, h⟩ := Option.bind_eq_some_iff.mp h
        cases h
        exact hcall ⟨rfl, rfl, id⟩
    · obtain ⟨⟨e', s, th'⟩, hstep, h⟩ := Option.bind_eq_some_iff.mp h
      cases h
      exact hcall (hthread hstep)
    · cases h
      exact hcall ⟨rfl, rfl, id⟩
  · cases h
    refine .other ⟨rfl, rfl, id⟩ (fun _ hpc => by cases hpc) fun pc hpc => ?_
    cases hpc
    rfl
  · cases h
    exact hcall (g.setPrngSeed_sameInit _)
  · rename_i r
    cases h
    refine .other ⟨rfl, rfl, id⟩ (fun pc hpc => ?_) fun _ hpc => by cases hpc
    cases hpc
    exact ⟨r, Or.inr rfl⟩
  · obtain ⟨⟨g₁, pc'⟩, hstep, h⟩ := Option.bind_eq_some_iff.mp h
    cases h
    exact initStep_initMoves hstep
  · cases h

/-! ## The invariant

What holds in the middle of a set-up holds of one thread only, the one that has the lock for
writing. So the invariant has a part for that thread (`InitPc.Holds`), and one for all moments:
either nothing is registered, or it is once, by a set-up that is done or by one that is under way. -/

/-- What holds of the set-up where a thread is.  `A` says that `wtable_create` never gives NULL. -/
def InitPc.Holds (A : Prop) (g : Globals W) : InitPc → Prop
  | .testInitialized => g.initialized = false → g.registered = 0
  | .create => g.initialized = false ∧ g.registered = 0
  | .register => g.initialized = false ∧ g.registered = 0 ∧ (A → g.enabledFails.isSome = true)
  | .seed => g.initialized = false ∧ g.registered = 1 ∧ (A → g.enabledFails.isSome = true)
  | .wlock | .unlock _ | .done _ => True

/-- The input is no `wtable_create` that gives NULL. -/
def Process.GetsTable : ProcessInput W → Prop
  | .turn _ (.malloc garbage) => garbage.isSome = true
  | _ => True

/-- No handler is registered, or one is by a set-up that is under way: its thread has the lock, or had it
    when the process was forked. -/
def Process.Pending (p : Process W) : Prop :=
  p.registered = 0 ∨ (p.registered = 1 ∧ ∃ j, p.enabledFailsLock.writer = some j ∧
    (j ∈ p.threads → (p.locals j).stage = some .seed))

/-- The library is set up once. -/
structure Process.InitOnce (A : Prop) (p : Process W) : Prop where
  holds : ∀ i ∈ p.threads, LocalHolds i p.toGlobals (p.locals i)
  ids : ∀ i ∈ p.threads, i < p.next
  old : ∀ i, p.enabledFailsLock.HeldBy i ∨ p.cacheLock.HeldBy i → i < p.next
  stage : ∀ i ∈ p.threads, ∀ pc, (p.locals i).stage = some pc → pc.Holds A p.toGlobals
  complete : p.initialized = true → p.registered = 1 ∧ (A → p.enabledFails.isSome = true)
  pending : p.initialized = false → p.Pending

/-- What holds at a stage holds in a state with the same set-up. -/
theorem InitPc.Holds.of_same {A : Prop} {g g' : Globals W} {pc : InitPc} (h : pc.Holds A g)
    (hsame : g.SameInit g') : pc.Holds A g' := by
  cases pc with
  | testInitialized =>
    intro hnot
    rw [hsame.initialized] at hnot
    rw [hsame.registered]
    exact h hnot
  | create => exact ⟨hsame.initialized.trans h.1, hsame.registered.trans h.2⟩
  | register | seed =>
    exact ⟨hsame.initialized.trans h.1, hsame.registered.trans h.2.1, fun hA => hsame.table (h.2.2 hA)⟩
  | _ => trivial

/-- Nothing is to hold of a thread that has not got the lock for writing. -/
theorem InitPc.holds_of_not_locked {A : Prop} {g : Globals W} {pc : InitPc} (h : pc.locked = false) :
    pc.Holds A g := by
  cases pc with
  | testInitialized | create | register | seed => cases h
  | _ => trivial

namespace Process

variable {A : Prop} {p q : Process W}

/-- Nothing is set up at first. -/
theorem initOnce_start (world : W) : (processStart world).InitOnce A where
  holds i _ := ⟨RwLock.heldAs_free i, RwLock.heldAs_free i⟩
  ids i hi := by
    rw [Finset.mem_singleton.mp hi]
    exact zero_lt_one
  old i hi := by simp [processStart, RwLock.HeldBy, RwLock.free] at hi
  stage i _ pc h := by cases h
  complete h := by cases h
  pending _ := Or.inl rfl

/-- A thread that is not where the lock is held for writing has not got it. -/
theorem InitOnce.writer_iff (hp : p.InitOnce A) {i : ℕ} (hi : i ∈ p.threads) :
    p.enabledFailsLock.writer = some i ↔ (p.locals i).writes = true := (hp.holds i hi).table.2

section turn

variable {i : ℕ} {a : LocalChoice W} {g : Globals W} {loc : Local W} {e : Event} {next : Option ℕ}

/-- The stages of the threads after a step of thread `i`. -/
theorem InitOnce.stage_turn (hp : p.InitOnce A) (hi : i ∈ p.threads)
    (hA : A → GetsTable (.turn i a)) (hm : InitMoves i a p.toGlobals (p.locals i) g loc) {j : ℕ}
    (hj : j ∈ p.threads) {pc : InitPc}
    (hpc : (Function.update p.locals i loc j).stage = some pc) : pc.Holds A g := by
  by_cases hji : j = i
  · subst hji
    rw [Function.update_self] at hpc
    have hstage := hp.stage j hj
    generalize p.locals j = before at hm hstage
    cases hm with
    | other hsame hloc hloc' => exact InitPc.holds_of_not_locked (hloc' pc hpc)
    | wlock hk =>
      cases hpc
      intro hnot
      -- nobody has the lock, so no set-up is under way
      rcases hp.pending hnot with h | ⟨-, k, hwriter, -⟩
      · exact h
      · rw [(RwLock.wrlock_eq_some hk).1] at hwriter
        cases hwriter
    | testInitialized =>
      cases hpc
      cases hset : p.initialized with
      | true => trivial
      | false => exact ⟨hset, hstage _ rfl hset⟩
    | create ha =>
      cases hpc
      refine ⟨(hstage _ rfl).1, (hstage _ rfl).2, fun h => ?_⟩
      have hgets := hA h
      rw [ha] at hgets
      exact (Option.isSome_map ..).trans hgets
    | register =>
      cases hpc
      obtain ⟨hnot, hzero, htable⟩ := hstage _ rfl
      refine ⟨hnot, ?_, htable⟩
      show List.countP _ (p.handlers ++ [.atforkChild]) = 1
      rw [List.countP_append, ← Globals.registered, hzero]
      rfl
    | registerFails =>
      cases hpc
      trivial
    | seed hset hregistered htable =>
      cases hpc
      trivial
  · rw [Function.update_of_ne hji] at hpc
    have hbefore := hp.stage j hj pc hpc
    -- while thread `i` has the lock, thread `j` has not
    have hout : (p.locals i).writes = true → pc.Holds A g := by
      intro hwrites
      apply InitPc.holds_of_not_locked
      rw [← Bool.not_eq_true]
      intro hlocked
      have hw : (p.locals j).writes = true := by
        cases hloc : p.locals j with
        | call th cache =>
          rw [hloc] at hpc
          cases hpc
        | init pc' =>
          rw [hloc] at hpc
          cases hpc
          exact hlocked
      rw [← hp.writer_iff hj, (hp.writer_iff hi).mpr hwrites] at hw
      exact hji (Option.some.inj hw).symm
    generalize p.locals i = before at hm hout
    cases hm with
    | other hsame hloc hloc' => exact hbefore.of_same hsame
    | wlock hk => exact hbefore.of_same ⟨rfl, rfl, id⟩
    | testInitialized => exact hbefore
    | registerFails => exact hbefore
    | create ha => exact hout rfl
    | register => exact hout rfl
    | seed hset hregistered htable => exact hout rfl

/-- A set-up that is under way stays so. -/
theorem InitOnce.pending_turn (hp : p.InitOnce A) (hi : i ∈ p.threads)
    (hl : LocalMoves P l i p.toGlobals a (p.locals i) e g loc)
    (hm : InitMoves i a p.toGlobals (p.locals i) g loc) (hnot : g.initialized = false) :
    Pending { p with
      toGlobals := g
      locals := Function.update p.locals i loc
      pendingWriter := next } := by
  -- somebody else's
  have hkeep : g.registered = p.registered → (p.locals i).stage ≠ some .seed →
      p.initialized = false →
      Pending { p with
        toGlobals := g
        locals := Function.update p.locals i loc
        pendingWriter := next } := by
    intro hregistered hstage hinit
    rcases hp.pending hinit with h | ⟨h, j, hwriter, hseed⟩
    · exact Or.inl (hregistered.trans h)
    · have hji : j ≠ i := by
        rintro rfl
        exact hstage (hseed hi)
      refine Or.inr ⟨hregistered.trans h, j, ?_, fun hj => ?_⟩
      · exact (hl.lock_same (Ne.symm hji)).1.2.mpr hwriter
      · show (Function.update p.locals i loc j).stage = _
        rw [Function.update_of_ne hji]
        exact hseed hj
  have hwriter := hp.writer_iff hi
  have hstage := hp.stage i hi
  generalize p.locals i = before at hm hkeep hwriter hstage
  cases hm with
  | other hsame hloc hloc' =>
    refine hkeep hsame.registered (fun h => ?_) (hsame.initialized.symm.trans hnot)
    obtain ⟨r, h | h⟩ := hloc _ h
    · cases h
    · cases h
  | wlock hk => exact hkeep rfl (fun h => by cases h) hnot
  | testInitialized => exact hkeep rfl (fun h => by cases h) hnot
  | create ha => exact hkeep rfl (fun h => by cases h) hnot
  | registerFails => exact hkeep rfl (fun h => by cases h) hnot
  | register =>
    -- its own
    have hone : List.countP Handler.isAtforkChild (p.handlers ++ [.atforkChild]) = 1 := by
      rw [List.countP_append, ← Globals.registered, (hstage _ rfl).2.1]
      rfl
    refine Or.inr ⟨hone, i, hwriter.mpr rfl, fun _ => ?_⟩
    show (Function.update p.locals i _ i).stage = _
    rw [Function.update_self]
    rfl
  | seed hset hregistered htable =>
    rw [hset] at hnot
    cases hnot

/-- **A step of a thread.** -/
theorem InitOnce.turn (hp : p.InitOnce A) (hi : i ∈ p.threads) (hA : A → GetsTable (.turn i a))
    (hl : LocalMoves P l i p.toGlobals a (p.locals i) e g loc)
    (hm : InitMoves i a p.toGlobals (p.locals i) g loc) :
    InitOnce A { p with
      toGlobals := g
      locals := Function.update p.locals i loc
      pendingWriter := next } where
  holds j hj := by
    show LocalHolds j g (Function.update p.locals i loc j)
    by_cases hji : j = i
    · subst hji
      rw [Function.update_self]
      exact hl.holds (hp.holds j hj)
    · rw [Function.update_of_ne hji]
      exact (hp.holds j hj).of_same (hl.lock_same (Ne.symm hji))
  ids := hp.ids
  old j hj := by
    by_cases hji : j = i
    · rw [hji]
      exact hp.ids i hi
    · obtain ⟨htable, hcache⟩ := hl.lock_same (Ne.symm hji)
      exact hp.old j (hj.imp (Or.imp htable.1.mp htable.2.mp) (Or.imp hcache.1.mp hcache.2.mp))
  stage j hj pc hpc := hp.stage_turn hi hA hm hj hpc
  complete hset := by
    have hset : g.initialized = true := hset
    show g.registered = 1 ∧ (A → g.enabledFails.isSome = true)
    have hstage := hp.stage i hi
    generalize p.locals i = before at hm hstage
    -- a set-up that is under way, in a library that is initialized
    have habsurd : ∀ {c : Prop}, p.initialized = false → p.initialized = true → c := by
      intro c hnot hset
      rw [hnot] at hset
      cases hset
    cases hm with
    | other hsame hloc hloc' =>
      obtain ⟨hone, htable⟩ := hp.complete (hsame.initialized.symm.trans hset)
      exact ⟨hsame.registered.trans hone, fun h => hsame.table (htable h)⟩
    | wlock hk => exact hp.complete hset
    | testInitialized => exact hp.complete hset
    | registerFails => exact hp.complete hset
    | create ha => exact habsurd (hstage _ rfl).1 hset
    | register => exact habsurd (hstage _ rfl).1 hset
    | seed hset hregistered htable =>
      obtain ⟨-, hone, hsome⟩ := hstage _ rfl
      exact ⟨hregistered.trans hone, fun h => by rw [htable]; exact hsome h⟩
  pending hnot := hp.pending_turn hi hl hm hnot

end turn

/-! ### New threads, and the child of a `fork` -/

/-- A new thread is in no set-up. -/
theorem InitOnce.spawn (hp : p.InitOnce A) : p.spawn.InitOnce A := by
  have hne : ∀ i ∈ p.threads, i ≠ p.next := fun i hi h => by
    have := hp.ids i hi
    omega
  have hlocals : ∀ i ∈ p.threads, p.spawn.locals i = p.locals i := fun i hi =>
    Function.update_of_ne (hne i hi) _ _
  have hnew : p.spawn.locals p.next = Local.start := Function.update_self _ _ _
  have hcases : ∀ i ∈ p.spawn.threads, i = p.next ∨ i ∈ p.threads := fun i hi => Finset.mem_insert.mp hi
  constructor
  · intro i hi
    rcases hcases i hi with rfl | hi
    · rw [hnew]
      refine ⟨RwLock.heldAs_of_not_heldBy fun h => ?_, RwLock.heldAs_of_not_heldBy fun h => ?_⟩
      · exact absurd (hp.old _ (Or.inl h)) (lt_irrefl _)
      · exact absurd (hp.old _ (Or.inr h)) (lt_irrefl _)
    · rw [hlocals i hi]
      exact hp.holds i hi
  · intro i hi
    show i < p.next + 1
    rcases hcases i hi with rfl | hi
    · omega
    · have := hp.ids i hi
      omega
  · intro i hi
    exact lt_of_lt_of_le (hp.old i hi) (Nat.le_succ _)
  · intro i hi pc hpc
    rcases hcases i hi with rfl | hi
    · rw [hnew] at hpc
      cases hpc
    · rw [hlocals i hi] at hpc
      exact hp.stage i hi pc hpc
  · exact hp.complete
  · intro hnot
    rcases hp.pending hnot with h | ⟨h, j, hwriter, hseed⟩
    · exact Or.inl h
    · refine Or.inr ⟨h, j, hwriter, fun hj => ?_⟩
      rcases hcases j hj with rfl | hj
      · exact absurd (hp.old _ (Or.inl (Or.inr hwriter))) (lt_irrefl _)
      · rw [hlocals j hj]
        exact hseed hj

/-- The clock seeds the generator. -/
theorem InitOnce.prngSeed (hp : p.InitOnce A) (usec : UInt32) :
    InitOnce A { p with toGlobals := p.toGlobals.prngSeed usec } := by
  have hg : ∃ xn, p.toGlobals.prngSeed usec = { p.toGlobals with randdXn := xn } := by
    unfold Globals.prngSeed
    split
    · exact ⟨p.randdXn, rfl⟩
    · exact ⟨usec, rfl⟩
  obtain ⟨xn, hg⟩ := hg
  rw [hg]
  exact ⟨fun i hi => ⟨(hp.holds i hi).table, (hp.holds i hi).cache⟩, hp.ids, hp.old,
    fun i hi pc hpc => (hp.stage i hi pc hpc).of_same ⟨rfl, rfl, id⟩, hp.complete, hp.pending⟩

/-- The handler of the remote control is another one. -/
theorem InitOnce.addFifo (hp : p.InitOnce A) :
    InitOnce A { p with handlers := p.handlers ++ [.fifoAtforkChild] } := by
  have hregistered :
      List.countP Handler.isAtforkChild (p.handlers ++ [.fifoAtforkChild]) = p.registered := by
    rw [List.countP_append, ← Globals.registered]
    rfl
  refine ⟨fun i hi => ⟨(hp.holds i hi).table, (hp.holds i hi).cache⟩, hp.ids, hp.old,
    fun i hi pc hpc => (hp.stage i hi pc hpc).of_same ⟨rfl, hregistered, id⟩, fun hset => ?_, fun hnot => ?_⟩
  · exact ⟨hregistered.trans (hp.complete hset).1, (hp.complete hset).2⟩
  · rcases hp.pending hnot with h | ⟨h, hj⟩
    · exact Or.inl (hregistered.trans h)
    · exact Or.inr ⟨hregistered.trans h, hj⟩

/-- In the copy with one thread no other set-up is under way. -/
theorem InitOnce.alone (hp : p.InitOnce A) {f : ℕ} (hf : f ∈ p.threads) : (p.alone f).InitOnce A := by
  have honly : ∀ i ∈ (p.alone f).threads, i = f := fun i hi => Finset.mem_singleton.mp hi
  constructor
  · intro i hi
    rw [honly i hi, alone_self]
    exact ⟨(hp.holds f hf).table, (hp.holds f hf).cache⟩
  · intro i hi
    rw [honly i hi]
    exact hp.ids f hf
  · exact hp.old
  · intro i hi pc hpc
    rw [honly i hi, alone_self] at hpc
    exact hp.stage f hf pc hpc
  · exact hp.complete
  · intro hnot
    rcases hp.pending hnot with h | ⟨h, j, hwriter, hseed⟩
    · exact Or.inl h
    · refine Or.inr ⟨h, j, hwriter, fun hj => ?_⟩
      rw [honly j hj, alone_self]
      rw [honly j hj] at hseed
      exact hseed hf

/-- What the handlers keep, they keep in the child. The induction is on the handlers that are left
    to run. -/
theorem handlers_keep {R : Process W → Prop} {f : ℕ} (answers : List (UInt32 × Bool))
    (halone : R (p.alone f))
    (hseed : ∀ (q : Process W) (usec : UInt32), R q → R { q with toGlobals := q.toGlobals.prngSeed usec })
    (hspawn : ∀ q : Process W, R q → R q.spawn) : R (p.child f answers) := by
  have hfold : ∀ (hs : List (Handler × (UInt32 × Bool))) (q : Process W), R q →
      R (hs.foldl (fun p h => h.1.run p h.2) q) := by
    intro hs
    induction hs with
    | nil => exact fun q hq => hq
    | cons h hs ih =>
      intro q hq
      apply ih
      obtain ⟨handler, answer⟩ := h
      cases handler with
      | atforkChild => exact hseed q answer.1 hq
      | fifoAtforkChild =>
        simp only [Handler.run]
        split
        · exact hspawn q hq
        · exact hq
  exact hfold _ _ halone

/-- **One step.** -/
theorem InitOnce.step (hp : p.InitOnce A) {a : ProcessInput W} (hA : A → GetsTable a)
    {o : ProcessEvent W} (h : processStep P l p a = some (o, q)) : q.InitOnce A := by
  cases processStep_moves h with
  | turn hi _ hstep => exact hp.turn hi hA (localStep_moves hstep) (localStep_initMoves hstep)
  | wait => exact ⟨hp.holds, hp.ids, hp.old, hp.stage, hp.complete, hp.pending⟩
  | pthreadCreate | rcFifoUnregistered => exact hp.spawn
  | rcFifo => exact hp.spawn.addFifo
  | rcFifoFailed => exact hp
  | fork side hf hforeign =>
    cases side with
    | parent => exact hp
    | child =>
      exact handlers_keep _ (hp.alone hf) (fun q usec hq => hq.prngSeed usec) fun q hq => hq.spawn

end Process

/-! ## Once

Behind the set-up only calls of the library change the table, and nothing changes the rest.

A child has the handlers of its parent, so what is said of their number is said of all processes. -/

/-- The set-up is done, and stays so. -/
theorem InitMoves.initialized {i : ℕ} {a : LocalChoice W} {g g' : Globals W} {loc loc' : Local W}
    (h : InitMoves i a g loc g' loc') (hset : g.initialized = true) : g'.initialized = true := by
  cases h with
  | other hsame hloc hloc' => exact hsame.initialized.trans hset
  | seed hset' hregistered htable => exact hset'
  | _ => exact hset

/-- Of the steps that are not of a call that `FiuThreads` knows, only one replaces the table. -/
theorem localStep_enabledFails {i : ℕ} {a : LocalChoice W} {g g' : Globals W} {loc loc' : Local W}
    {e : Event} (h : localStep P l i a g loc = some (e, g', loc')) (ha : ∀ c, a ≠ .thread c)
    (hcreate : loc.stage ≠ some .create) : g'.enabledFails = g.enabledFails := by
  unfold localStep at h
  split at h
  · exact absurd rfl (ha _)
  · cases h
    rfl
  · cases h
    rfl
  · cases h
    rfl
  · rename_i pc hdone
    obtain ⟨⟨g₁, pc'⟩, hstep, h⟩ := Option.bind_eq_some_iff.mp h
    cases h
    have hmoves := initStep_initMoves hstep
    generalize hbefore : (Local.init pc : Local W) = before at hmoves hcreate
    cases hmoves with
    | other hsame hloc hloc' =>
      -- the lock is given back
      subst hbefore
      obtain ⟨r, rfl | rfl⟩ := hloc pc rfl
      · cases hstep
        rfl
      · cases hstep
    | create ha => exact absurd rfl hcreate
    | seed hset hregistered htable => exact htable
    | _ => rfl
  · cases h

namespace Process

variable {p q : Process W}

/-- The input is not a step of `fiu_fail`, of a `fiu_enable` function or of `fiu_disable`. -/
def Elsewhere : ProcessInput W → Prop
  | .turn _ a => ∀ c, a ≠ .thread c
  | _ => True

/-- Handlers leave alone what `fiu_init` has set up. -/
theorem child_initialized (p : Process W) (f : ℕ) (answers : List (UInt32 × Bool)) :
    (p.child f answers).initialized = p.initialized ∧
      (p.child f answers).enabledFails = p.enabledFails := by
  refine handlers_keep (R := fun q => q.initialized = p.initialized ∧
    q.enabledFails = p.enabledFails) answers ⟨rfl, rfl⟩ (fun q usec hq => ?_) fun q hq => hq
  unfold Globals.prngSeed
  split <;> exact hq

/-- **One step** of a process whose library is initialized. -/
theorem InitOnce.initialized_step (hp : p.InitOnce A) (hset : p.initialized = true)
    {a : ProcessInput W} {o : ProcessEvent W} (h : processStep P l p a = some (o, q)) :
    q.initialized = true ∧ (Elsewhere a → q.enabledFails = p.enabledFails) := by
  cases processStep_moves h with
  | @turn i _ _ _ _ hi _ hstep =>
    refine ⟨(localStep_initMoves hstep).initialized hset, fun ha => ?_⟩
    refine localStep_enabledFails hstep ha fun hcreate => ?_
    have hnot := (hp.stage i hi .create hcreate).1
    rw [hset] at hnot
    cases hnot
  | wait | pthreadCreate | rcFifo | rcFifoUnregistered | rcFifoFailed => exact ⟨hset, fun _ => rfl⟩
  | @fork f answers side _ _ =>
    cases side with
    | parent => exact ⟨hset, fun _ => rfl⟩
    | child =>
      obtain ⟨hinit, htable⟩ := p.child_initialized f answers
      exact ⟨hinit.trans hset, fun _ => htable⟩

/-- At most one handler, whatever is under way. -/
theorem InitOnce.registered_le (hp : p.InitOnce A) : p.registered ≤ 1 := by
  cases hset : p.initialized with
  | true => exact le_of_eq (hp.complete hset).1
  | false =>
    rcases hp.pending hset with h | ⟨h, -⟩
    · omega
    · omega

end Process

/-- **The library is set up once**, in every run of a process and its children: whichever threads call
    `fiu_init`, however often, in any interleaving, whether it finds memory and gets its handler, and
    wherever it forks.

    `atfork_child` is registered once at most.  From when the library is initialized it stays so, with
    the handler; and whatever happens then outside of `fiu_fail`, the `fiu_enable` functions and
    `fiu_disable` leaves the table as it is.  It is there if `wtable_create` never gave NULL. -/
theorem fiu_init_once (P : Platform) (l : Linker) (world : W) (inputs : List (ProcessInput W))
    {os : List (ProcessEvent W)} {p : Process W}
    (hrun : Machine.run (processStep P l) (processStart world) inputs = some (os, p)) :
    p.registered ≤ 1 ∧
      (p.initialized = true → ∀ (more : List (ProcessInput W)) {os' : List (ProcessEvent W)}
        {q : Process W}, Machine.run (processStep P l) p more = some (os', q) →
        q.initialized = true ∧ q.registered = 1 ∧
          ((∀ a ∈ inputs ++ more, Process.GetsTable a) → q.enabledFails.isSome = true) ∧
          ((∀ a ∈ more, Process.Elsewhere a) → q.enabledFails = p.enabledFails)) := by
  -- a run, if `A` implies that its calls get their tables
  have hkeep : ∀ {A : Prop} (as : List (ProcessInput W)) {p q : Process W}
      {os : List (ProcessEvent W)}, p.InitOnce A → (A → ∀ a ∈ as, Process.GetsTable a) →
      Machine.run (processStep P l) p as = some (os, q) → q.InitOnce A := by
    intro A as p q os hp hA hrun
    exact Machine.run_preserves_guarded (J := Process.InitOnce A) (Q := fun _ _ => True)
      (p := fun a => A → Process.GetsTable a) (fun hp hA _ h => hp.step hA h) as hp
      (fun a ha h => hA h a ha) (Machine.guarded_of_forall p fun _ _ _ => trivial) hrun
  have hp : p.InitOnce False :=
    hkeep inputs (Process.initOnce_start world) (fun h => h.elim) hrun
  refine ⟨hp.registered_le, fun hset more os' q hmore => ?_⟩
  have hafter := Machine.run_preserves_guarded (Q := fun _ _ => True) (p := fun _ => True)
    (J := fun q : Process W => q.InitOnce False ∧ q.initialized = true)
    (fun hq _ _ h => ⟨hq.1.step (fun h => h.elim) h, (hq.1.initialized_step hq.2 h).1⟩)
    more ⟨hp, hset⟩ (fun _ _ => trivial) (Machine.guarded_of_forall p fun _ _ _ => trivial) hmore
  obtain ⟨hq, hqset⟩ := hafter
  refine ⟨hqset, (hq.complete hqset).1, fun htables => ?_, fun helse => ?_⟩
  · -- with memory for every table
    have hall : ∀ as, as ⊆ inputs ++ more → True → ∀ a ∈ as, Process.GetsTable a :=
      fun as hsub _ a ha => htables a (hsub ha)
    have hp' : p.InitOnce True := hkeep inputs (Process.initOnce_start world)
      (hall inputs (List.subset_append_left ..)) hrun
    have hq' : q.InitOnce True := hkeep more hp' (hall more (List.subset_append_right ..)) hmore
    exact (hq'.complete hqset).2 trivial
  · have htable := Machine.run_preserves_guarded (Q := fun _ _ => True) (p := Process.Elsewhere)
      (J := fun q : Process W => q.InitOnce False ∧ q.initialized = true ∧
        q.enabledFails = p.enabledFails)
      (fun hq ha _ h => by
        obtain ⟨hset', htable⟩ := hq.1.initialized_step hq.2.1 h
        exact ⟨hq.1.step (fun h => h.elim) h, hset', (htable ha).trans hq.2.2⟩)
      more ⟨hp, hset, rfl⟩ helse (Machine.guarded_of_forall p fun _ _ _ => trivial) hmore
    exact htable.2.2

/-- The main thread of `forkInputs` and its child call `fiu_init` again. -/
theorem fiu_init_once_again :
    ∃ (p q : Process Unit) (os os' : List (ProcessEvent Unit)),
      Machine.run (processStep Platform.ieee noSymbols) (processStart ()) (forkInputs 4)
        = some (os, p) ∧
      Machine.run (processStep Platform.ieee noSymbols) p
        [.turn 0 .fiuInit, .turn 0 .fiuInit, .turn 0 .fiuInit, .turn 0 .fiuInit, .turn 0 .fiuInit]
        = some (os', q) ∧
      p.registered ≤ 1 ∧ q.registered = 1 ∧ q.enabledFails = p.enabledFails := by
  have hall : ((Machine.run (processStep Platform.ieee noSymbols) (processStart ())
      (forkInputs 4)).bind fun r =>
        (Machine.run (processStep Platform.ieee noSymbols) r.2
          [.turn 0 .fiuInit, .turn 0 .fiuInit, .turn 0 .fiuInit, .turn 0 .fiuInit,
            .turn 0 .fiuInit]).map fun _ => r.2.initialized) = some true := by
    decide +kernel
  obtain ⟨⟨os, p⟩, hrun, hmore⟩ := Option.bind_eq_some_iff.mp hall
  obtain ⟨⟨os', q⟩, hmore, hset⟩ := Option.map_eq_some_iff.mp hmore
  obtain ⟨hle, hafter⟩ := fiu_init_once Platform.ieee noSymbols () (forkInputs 4) hrun
  obtain ⟨-, hone, -, htable⟩ := hafter hset _ hmore
  refine ⟨p, q, os, os', hrun, hmore, hle, hone, htable fun a ha => ?_⟩
  have hcall : a = .turn 0 .fiuInit := by simpa using ha
  rw [hcall]
  exact fun c h => by cases h

end Libfiu
