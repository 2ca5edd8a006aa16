/-
  `rec_count` and `enabled_fails_lock`, when every call may call `fiu_fail` again.

  1. **One function** — `Holds ends entry` is the logic of a function that was entered in the state
     `entry`: at each of its calls, a thread that holds the lock has `rec_count` at 1 or above, the
     lock is requested only when it is not held, and a function that was entered with the lock held
     does nothing but raise, read and lower `rec_count` (`Guarantee`).  It is a logic of total
     correctness: the function is nowhere undefined, and on every path it comes to an end, since it is
     a tree of finite depth.  Every function of the library ends as it was entered (`api_level`).

  2. **No way out** — three calls do not answer (`FiuOp.ends`): where a thread is over, where a number
     is read through NULL, and where the turns are over for which `rc_fifo_thread` is looked at.  Only
     a function for which `ends` is assumed may come to one, and not with the lock held.

  3. **All threads** — while a call of libc is under way, it may call `fiu_fail`, and that makes calls
     again: a thread is a stack of functions (`Calls.Stack`), and the threads share the lock.  From
     the logic of one function follows what holds in every interleaving (`reentry_invariant`), and that
     every thread goes on when its call answers, up to its return (`rec_count_reentry`).
-/
import Libfiu.FiuCode
import Libfiu.Lib.Threads

namespace Libfiu

namespace Reentry

open Calls

/-! ## The logic of one function

A logic for programs that make calls, with a precondition, a postcondition and a guarantee at each
call in between: the state in which others may come in. -/

/-- A thread that holds the lock has raised `rec_count`. -/
def FiuTls.Ok (t : FiuTls) : Prop := 0 ≤ t.recCount ∧ (t.holds = true → 1 ≤ t.recCount)

/-- The call is about `rec_count` and nothing else. -/
def FiuOp.counts : FiuOp → Bool
  | .recInc | .recDec | .recCount => true
  | _ => false

/-- The call requests the lock. -/
def FiuOp.requests : FiuOp → Bool
  | .efRlock | .efWlock => true
  | _ => false

/-- The call neither is about `rec_count` nor about the lock. -/
def FiuOp.plain : FiuOp → Bool
  | .libc _ | .wtable _ | .externalCb | .load _ | .store _ | .greater _ _ => true
  | _ => false

/-- What a function that was entered in the state `entry` guarantees when it makes a call in the state
    `t`.  `ends` says whether it may come to a call that does not answer. -/
structure Guarantee (ends : Prop) (entry : FiuTls) (op : FiuOp) (t : FiuTls) : Prop where
  ok : t.Ok
  request : op.requests = true → t.holds = false
  counts : entry.holds = true → op.counts = true
  noWayOut : op.ends = true → ends ∧ t.holds = false

/-- What a call does: it changes the thread as it should, and `rec_count` is read as it is. -/
def Answers (op : FiuOp) (t : FiuTls) (r : ℤ) (t' : FiuTls) : Prop :=
  t' = op.after t ∧ (op = .recCount → r = t.recCount) ∧ op.ends = false

/-- The logic of a function that was entered in the state `entry`: from a state that meets `P` it makes
    its calls as it guarantees, is nowhere undefined, and ends in a state that meets `Q`. -/
structure Holds {α : Type} (ends : Prop) (entry : FiuTls) (P : FiuTls → Prop) (m : FiuCode α)
    (Q : α → FiuTls → Prop) : Prop where
  safe : Code.Lasting False (Guarantee ends entry) Answers P m Q
  still : Code.Still m

/-- `rec_count` is `n`, and the lock is held or not. -/
def At (n : ℤ) (held : Bool) (t : FiuTls) : Prop := t = ⟨n, held⟩

variable {α β : Type} {ends : Prop} {entry : FiuTls} {P : FiuTls → Prop} {Q : α → FiuTls → Prop} {n : ℤ}
  {held : Bool}

/-- One after the other. -/
theorem Holds.bind {m : FiuCode α} {f : α → FiuCode β} {Q' : β → FiuTls → Prop}
    (hm : Holds ends entry P m Q) (hf : ∀ a, Holds ends entry (Q a) (f a) Q') :
    Holds ends entry P (m >>= f) Q' :=
  ⟨hm.safe.bind fun a => (hf a).safe, hm.still.bind fun a => (hf a).still⟩

/-- A function that is over. -/
theorem Holds.pure {a : α} (h : ∀ t, P t → Q a t) : Holds ends entry P (Pure.pure a) Q :=
  ⟨Code.Lasting.pure h, Code.Still.pure⟩

/-- Both branches hold. -/
theorem Holds.ite {p : Prop} [Decidable p] {m m' : FiuCode α} (hm : Holds ends entry P m Q)
    (hm' : Holds ends entry P m' Q) : Holds ends entry P (if p then m else m') Q :=
  ⟨Code.Lasting.ite (fun _ => hm.safe) fun _ => hm'.safe, hm.still.ite hm'.still⟩

/-- A state that meets more. -/
theorem Holds.pre {m : FiuCode α} {P' : FiuTls → Prop} (hm : Holds ends entry P m Q)
    (hP : ∀ t, P' t → P t) : Holds ends entry P' m Q := ⟨hm.safe.mono hP fun _ _ h => h, hm.still⟩

/-- A call. -/
theorem Holds.ask {op : FiuOp} {Q : ℤ → FiuTls → Prop} (hG : Guarantee ends entry op ⟨n, held⟩)
    (hQ : ∀ r t, Answers op ⟨n, held⟩ r t → Q r t) :
    Holds ends entry (At n held) (Code.ask op) Q := by
  refine ⟨?_, Code.Still.ask⟩
  rintro t rfl
  exact ⟨hG, hQ⟩

/-- A call of which only matters what it does to the thread. -/
theorem holds_ask {op : FiuOp} (hG : Guarantee ends entry op ⟨n, held⟩) :
    Holds ends entry (At n held) (Code.ask op) fun _ t => t = op.after ⟨n, held⟩ :=
  Holds.ask hG fun _ _ h => h.1

/-- A call that neither is about `rec_count` nor about the lock. -/
theorem holds_plain {op : FiuOp} (hop : op.plain = true) (hok : FiuTls.Ok ⟨n, held⟩)
    (hentry : entry.holds = false) :
    Holds ends entry (At n held) (Code.ask op) fun _ => At n held := by
  have hafter : op.after ⟨n, held⟩ = ⟨n, held⟩ := by
    cases op <;> first | rfl | cases hop
  have hrequests : op.requests = false := by
    cases op <;> first | rfl | cases hop
  have hends : op.ends = false := by
    cases op <;> first | rfl | cases hop
  refine Holds.ask ⟨hok, fun h => ?_, fun h => ?_, fun h => ?_⟩ fun r t' h => h.1.trans hafter
  · rw [hrequests] at h
    cases h
  · rw [hentry] at h
    cases h
  · rw [hends] at h
    cases h

theorem holds_recInc (hok : FiuTls.Ok ⟨n, held⟩) :
    Holds ends entry (At n held) (Code.ask .recInc) fun _ => At (n + 1) held :=
  holds_ask ⟨hok, fun h => (by cases h), fun _ => rfl, fun h => (by cases h)⟩

theorem holds_recDec (hok : FiuTls.Ok ⟨n + 1, held⟩) :
    Holds ends entry (At (n + 1) held) (Code.ask .recDec) fun _ => At n held := by
  have h : Holds ends entry (At (n + 1) held) (Code.ask .recDec) fun _ t =>
      t = FiuOp.recDec.after ⟨n + 1, held⟩ :=
    holds_ask ⟨hok, fun h => (by cases h), fun _ => rfl, fun h => (by cases h)⟩
  have hn : n + 1 - 1 = n := by omega
  unfold FiuOp.after at h
  dsimp only at h
  rwa [hn] at h

/-- Taking the lock. -/
theorem holds_lock {op : FiuOp} (hop : op.requests = true) (hn : 0 ≤ n) (hentry : entry.holds = false) :
    Holds ends entry (At n false) (Code.ask op) fun _ => At n true := by
  have hok : FiuTls.Ok ⟨n, false⟩ := ⟨hn, fun h => by cases h⟩
  have hends : op.ends = false := by
    cases op <;> first | rfl | cases hop
  have hG : Guarantee ends entry op ⟨n, false⟩ :=
    ⟨hok, fun _ => rfl, fun h => absurd (hentry.symm.trans h) Bool.false_ne_true,
      fun h => absurd (hends.symm.trans h) Bool.false_ne_true⟩
  cases op with
  | efRlock => exact holds_ask hG
  | efWlock => exact holds_ask hG
  | _ => cases hop

/-- Giving it back. -/
theorem holds_efUnlock (hn : 1 ≤ n) (hentry : entry.holds = false) :
    Holds ends entry (At n true) (Code.ask .efUnlock) fun _ => At n false :=
  holds_ask ⟨⟨by show 0 ≤ n; omega, fun _ => hn⟩, fun h => (by cases h),
    fun h => absurd (hentry.symm.trans h) Bool.false_ne_true, fun h => (by cases h)⟩

/-- Reading `rec_count`. -/
theorem holds_recCount (hok : FiuTls.Ok ⟨n, held⟩) :
    Holds ends entry (At n held) (Code.ask .recCount) fun r t => At n held t ∧ r = n :=
  Holds.ask ⟨hok, fun h => (by cases h), fun _ => rfl, fun h => (by cases h)⟩ fun r t' h => ⟨h.1, h.2.1 rfl⟩

/-- A call that does not answer: nothing follows. -/
theorem holds_ends {op : FiuOp} {Q : ℤ → FiuTls → Prop} (hop : op.ends = true) (h : ends) (hn : 0 ≤ n)
    (hentry : entry.holds = false) : Holds ends entry (At n false) (Code.ask op) Q := by
  have hok : FiuTls.Ok ⟨n, false⟩ := ⟨hn, fun h => by cases h⟩
  refine Holds.ask ⟨hok, fun _ => rfl, fun h => ?_, fun _ => ⟨h, rfl⟩⟩ fun r t ht => ?_
  · rw [hentry] at h
    cases h
  · have hno := ht.2.2
    rw [hop] at hno
    cases hno

/-! ## Functions that have no part in it

They neither look at `rec_count` nor at the lock, and so they keep whatever holds of the two. -/

/-- The function makes plain calls only. -/
def Plain (m : FiuCode α) : Prop :=
  ∀ ⦃ends : Prop⦄ ⦃entry : FiuTls⦄ ⦃n : ℤ⦄ ⦃held : Bool⦄, entry.holds = false →
    FiuTls.Ok ⟨n, held⟩ → Holds ends entry (At n held) m fun _ => At n held

/-- A function that is over is plain. -/
theorem Plain.pure {a : α} : Plain (Pure.pure a : FiuCode α) :=
  fun _ _ _ _ _ _ => Holds.pure fun _ ht => ht

/-- One plain function after another is plain. -/
theorem Plain.bind {m : FiuCode α} {f : α → FiuCode β} (hm : Plain m) (hf : ∀ a, Plain (f a)) :
    Plain (m >>= f) := fun _ _ _ _ hentry hok => (hm hentry hok).bind fun a => hf a hentry hok

/-- Either of two plain functions is plain. -/
theorem Plain.ite {p : Prop} [Decidable p] {m m' : FiuCode α} (hm : Plain m) (hm' : Plain m') :
    Plain (if p then m else m') := fun _ _ _ _ hentry hok =>
  Holds.ite (hm hentry hok) (hm' hentry hok)

/-- A plain call is plain. -/
theorem Plain.ask {op : FiuOp} (hop : op.plain = true) : Plain (Code.ask op) :=
  fun _ _ _ _ hentry hok => holds_plain hop hok hentry

theorem plain_libc (fn : LibcFn) : Plain (libc fn) := Plain.ask rfl

theorem plain_load (v : Var) : Plain (load v) := Plain.ask rfl

theorem plain_store (v : Var) : Plain (store v) := Plain.ask rfl

theorem plain_getFuncStart : Plain getFuncStart :=
  (plain_libc _).bind fun _ => Plain.ite Plain.pure (plain_load _)

theorem plain_getFuncEnd (func : ℤ) : Plain (getFuncEnd func) := by
  refine (plain_libc _).bind fun _ => Plain.ite Plain.pure ?_
  refine (plain_load _).bind fun _ => Plain.ite Plain.pure ?_
  refine (plain_load _).bind fun _ => Plain.ite Plain.pure ?_
  exact (plain_load _).bind fun _ => Plain.pure

theorem plain_setWorks (r : ℤ) : Plain (setWorks r) := (plain_store _).bind fun _ => Plain.pure

theorem plain_backtraceWorksLoop (start funcEnd : ℤ) :
    ∀ nptrs, Plain (backtraceWorksLoop start funcEnd nptrs) := by
  intro nptrs
  induction nptrs with
  | zero => exact plain_setWorks 0
  | succ nptrs ih =>
    refine (plain_load _).bind fun _ => Plain.ite ?_ ?_
    · exact Plain.ite (plain_setWorks 1) ih
    · exact plain_getFuncStart.bind fun _ => Plain.ite (plain_setWorks 1) ih

theorem plain_backtraceWorks (caller : ℤ) : Plain (backtraceWorks caller) := by
  refine (plain_load _).bind fun _ => Plain.ite Plain.pure ?_
  refine (plain_libc _).bind fun _ => Plain.ite (plain_setWorks 0) ?_
  refine plain_getFuncStart.bind fun _ => (plain_getFuncEnd caller).bind fun _ => ?_
  exact Plain.ite (plain_setWorks 0) (plain_backtraceWorksLoop _ _ _)

theorem plain_pcInFunc : Plain pcInFunc := by
  refine (plain_load _).bind fun _ => (plain_load _).bind fun _ => (plain_load _).bind fun _ => ?_
  exact Plain.ite Plain.pure (plain_getFuncStart.bind fun _ => Plain.pure)

theorem plain_shouldStackFailLoop : ∀ (n : ℕ) (i : ℤ), Plain (shouldStackFailLoop n i) := by
  intro n
  induction n with
  | zero => exact fun _ => Plain.pure
  | succ n ih =>
    intro i
    refine plain_pcInFunc.bind fun _ => (plain_load _).bind fun _ => ?_
    exact Plain.ite Plain.pure (ih (i + 1))

theorem plain_shouldStackFail : Plain shouldStackFail :=
  (plain_libc _).bind fun _ => plain_shouldStackFailLoop _ _

theorem plain_prngSeed : Plain prngSeed := by
  refine (plain_load _).bind fun _ => Plain.ite Plain.pure ?_
  exact (plain_libc _).bind fun _ => plain_store _

theorem plain_seedFromEnv (seed : ℤ) : Plain (seedFromEnv seed) := by
  refine Plain.ite ?_ Plain.pure
  exact (plain_libc _).bind fun _ => (plain_store _).bind fun _ => plain_store _

theorem plain_randd : Plain randd :=
  (plain_load _).bind fun _ => (plain_store _).bind fun _ => plain_load _

/-- The loop of `read_line` ends before it would write past the array.  The induction is on the bytes
    for which there is room. -/
theorem plain_readLineLoop : ∀ (n : ℕ) (buf : List UInt8), 0 < n → buf.length + n = maxLine →
    Plain (readLineLoop n buf) := by
  have hend : ∀ (buf : List UInt8), ∃ len array, readLineEnd buf = .done len array := by
    intro buf
    unfold readLineEnd
    split
    · exact ⟨_, _, rfl⟩
    · exact ⟨_, _, rfl⟩
  intro n
  induction n with
  | zero => exact fun _ h => absurd h (lt_irrefl 0)
  | succ n ih =>
    intro buf _ hlen
    refine (plain_libc _).bind fun r => Plain.ite Plain.pure (Plain.ite ?_ ?_)
    · obtain ⟨len, array, hdone⟩ := hend buf
      have hstep : readLineStep buf .eof = .done len array := hdone
      rw [hstep]
      exact Plain.pure
    · refine (plain_load _).bind fun c => ?_
      by_cases hmore : UInt8.ofNat c.toNat ≠ newline ∧ UInt8.ofNat c.toNat ≠ 0 ∧
          buf.length + 1 < maxLine
      · rw [readLineStep_byte, if_pos hmore]
        refine ih _ (by omega) ?_
        rw [List.length_append, List.length_singleton]
        omega
      · obtain ⟨len, array, hdone⟩ := hend (buf ++ [UInt8.ofNat c.toNat])
        rw [readLineStep_byte, if_neg hmore, hdone]
        exact Plain.pure

theorem plain_rcReplyTo (len : ℤ) : Plain (rcReplyTo len) := by
  refine (plain_libc _).bind fun _ => (plain_libc _).bind fun _ => ?_
  exact Plain.ite Plain.pure Plain.pure

/-! ## Functions that are called without the lock

The two ways in which a function is left: `Lowers` from where `rec_count` was raised, `Releases`
from where the lock was taken as well. -/

/-- The function, entered without the lock, leaves the thread as it was. -/
def Leaves (ends : Prop) (m : FiuCode α) : Prop :=
  ∀ ⦃entry : FiuTls⦄ ⦃n : ℤ⦄, entry.holds = false → 0 ≤ n →
    Holds ends entry (At n false) m fun _ => At n false

/-- A thread without the lock is as it should be. -/
theorem ok_false (hn : 0 ≤ n) : FiuTls.Ok ⟨n, false⟩ := ⟨hn, fun h => by cases h⟩

theorem ok_true (hn : 1 ≤ n) : FiuTls.Ok ⟨n, true⟩ := ⟨by show 0 ≤ n; omega, fun _ => hn⟩

/-- A plain function leaves everything as it was. -/
theorem Plain.leaves {m : FiuCode α} (hm : Plain m) : Leaves ends m :=
  fun _ _ hentry hn => hm hentry (ok_false hn)

/-- One after the other. -/
theorem Leaves.bind {m : FiuCode α} {f : α → FiuCode β} (hm : Leaves ends m)
    (hf : ∀ a, Leaves ends (f a)) : Leaves ends (m >>= f) :=
  fun _ _ hentry hn => (hm hentry hn).bind fun a => hf a hentry hn

/-- Both branches leave the thread as it was. -/
theorem Leaves.ite {p : Prop} [Decidable p] {m m' : FiuCode α} (hm : Leaves ends m)
    (hm' : Leaves ends m') : Leaves ends (if p then m else m') := fun _ _ hentry hn =>
  Holds.ite (hm hentry hn) (hm' hentry hn)

/-- The function raised `rec_count`; it lowers it. -/
def Lowers (ends : Prop) (m : FiuCode α) : Prop :=
  ∀ ⦃entry : FiuTls⦄ ⦃n : ℤ⦄, entry.holds = false → 0 ≤ n →
    Holds ends entry (At (n + 1) false) m fun _ => At n false

/-- The function raised `rec_count` and took the lock; it undoes both. -/
def Releases (ends : Prop) (m : FiuCode α) : Prop :=
  ∀ ⦃entry : FiuTls⦄ ⦃n : ℤ⦄, entry.holds = false → 0 ≤ n →
    Holds ends entry (At (n + 1) true) m fun _ => At n false

/-- Both branches lower the counter. -/
theorem Lowers.ite {p : Prop} [Decidable p] {m m' : FiuCode α} (hm : Lowers ends m)
    (hm' : Lowers ends m') : Lowers ends (if p then m else m') := fun _ _ hentry hn =>
  Holds.ite (hm hentry hn) (hm' hentry hn)

/-- Both branches release the lock. -/
theorem Releases.ite {p : Prop} [Decidable p] {m m' : FiuCode α} (hm : Releases ends m)
    (hm' : Releases ends m') : Releases ends (if p then m else m') := fun _ _ hentry hn =>
  Holds.ite (hm hentry hn) (hm' hentry hn)

/-- Something plain in front. -/
theorem Lowers.after {m : FiuCode α} {f : α → FiuCode β} (hm : Plain m)
    (hf : ∀ a, Lowers ends (f a)) : Lowers ends (m >>= f) := fun _ _ hentry hn =>
  (hm hentry (ok_false (by omega))).bind fun a => hf a hentry hn

theorem Releases.after {m : FiuCode α} {f : α → FiuCode β} (hm : Plain m)
    (hf : ∀ a, Releases ends (f a)) : Releases ends (m >>= f) := fun _ _ hentry hn =>
  (hm hentry (ok_true (by omega))).bind fun a => hf a hentry hn

/-- `rec_count--; return r`. -/
theorem lowers_recDec {a : α} :
    Lowers ends (do let _ ← Code.ask .recDec; Pure.pure a : FiuCode α) := fun _ _ _ hn =>
  (holds_recDec (ok_false (by omega))).bind fun _ => Holds.pure fun _ ht => ht

/-- `ef_runlock(); rec_count--; return r`. -/
theorem releases_efUnlock {a : α} :
    Releases ends (do let _ ← Code.ask .efUnlock; let _ ← Code.ask .recDec; Pure.pure a : FiuCode α) :=
  fun _ _ hentry hn => (holds_efUnlock (by omega) hentry).bind fun _ => lowers_recDec hentry hn

/-- `rec_count++` in front. -/
theorem leaves_recInc {m : FiuCode α} (hm : Lowers ends m) :
    Leaves ends (do let _ ← Code.ask .recInc; m) := fun _ _ hentry hn =>
  (holds_recInc (ok_false hn)).bind fun _ => hm hentry hn

/-- `ef_rlock()` or `ef_wlock()` in front. -/
theorem lowers_lock {op : FiuOp} (hop : op.requests = true) {m : FiuCode α} (hm : Releases ends m) :
    Lowers ends (do let _ ← Code.ask op; m) := fun _ _ hentry hn =>
  (holds_lock hop (by omega) hentry).bind fun _ => hm hentry hn

/-! ## The functions of the library

For each function, that it leaves the thread as it found it. The proofs follow the code: what is
raised in front of a label is lowered behind it. -/

theorem leaves_pfCreate : Leaves ends pfCreate := by
  refine leaves_recInc (Lowers.after (plain_libc _) fun pf => Lowers.ite lowers_recDec ?_)
  refine Lowers.after (plain_libc _) fun name => Lowers.ite ?_ ?_
  · exact Lowers.after (plain_libc _) fun _ => lowers_recDec
  · refine Lowers.after (plain_libc _) fun _ => Lowers.after (plain_store _) fun _ => ?_
    exact Lowers.after (plain_libc _) fun _ => Lowers.after (plain_store _) fun _ => lowers_recDec

theorem leaves_insertPf : Leaves ends insertPf :=
  leaves_recInc (lowers_lock rfl (Releases.after (Plain.ask rfl) fun _ => releases_efUnlock))

theorem leaves_fiuDisable : Leaves ends fiuDisable :=
  leaves_recInc (lowers_lock rfl (Releases.after (Plain.ask rfl) fun _ => releases_efUnlock))

/-- **`fiu_init`**, on each of its ways out. -/
theorem leaves_fiuInit : Leaves ends fiuInit := by
  refine leaves_recInc (lowers_lock rfl (Releases.after (plain_load _) fun _ => ?_))
  refine Releases.ite releases_efUnlock ?_
  refine Releases.after (plain_libc _) fun _ => Releases.after (Plain.ask rfl) fun _ => ?_
  refine Releases.after (plain_store _) fun _ => Releases.after (plain_libc _) fun _ => ?_
  refine Releases.ite releases_efUnlock ?_
  refine Releases.after (plain_libc _) fun seed => Releases.after (plain_seedFromEnv seed) fun _ => ?_
  refine Releases.after plain_prngSeed fun _ => Releases.after (plain_store _) fun _ => ?_
  exact releases_efUnlock

theorem releases_exitFail : Releases ends exitFail := by
  refine Releases.after (plain_libc _) fun _ => Releases.after (plain_load _) fun _ => ?_
  refine Releases.after (plain_load _) fun _ => Releases.ite ?_ releases_efUnlock
  refine Releases.after (plain_store _) fun _ => Releases.after (plain_libc _) fun _ => ?_
  exact releases_efUnlock

theorem releases_notFailing : Releases ends notFailing := by
  refine Releases.after (plain_load _) fun _ => Releases.ite ?_ releases_efUnlock
  exact Releases.after (plain_libc _) fun _ => releases_efUnlock

theorem releases_fiuFailSwitch : Releases ends fiuFailSwitch := by
  refine Releases.after (plain_load _) fun _ => Releases.ite releases_exitFail (Releases.ite ?_ ?_)
  · refine Releases.after (plain_load _) fun _ => Releases.after plain_randd fun _ => ?_
    exact Releases.after (Plain.ask rfl) fun _ => Releases.ite releases_exitFail releases_notFailing
  · refine Releases.ite ?_ (Releases.ite ?_ releases_notFailing)
    · exact Releases.after (Plain.ask rfl) fun _ => Releases.ite releases_exitFail releases_notFailing
    · exact Releases.after plain_shouldStackFail fun _ =>
        Releases.ite releases_exitFail releases_notFailing

theorem releases_fiuFailFound : Releases ends fiuFailFound := by
  refine Releases.after (plain_load _) fun _ => Releases.ite ?_ releases_fiuFailSwitch
  refine Releases.after (plain_libc _) fun _ => Releases.after (plain_load _) fun _ => ?_
  refine Releases.ite ?_ releases_fiuFailSwitch
  exact Releases.after (plain_libc _) fun _ => releases_efUnlock

/-- `fiu_fail` from `ef_rlock` on. -/
theorem lowers_fiuFailLocked : Lowers ends fiuFailLocked := by
  refine lowers_lock rfl (Releases.after (plain_load _) fun _ => Releases.ite releases_efUnlock ?_)
  exact Releases.after (Plain.ask rfl) fun _ => Releases.ite releases_efUnlock releases_fiuFailFound

/-- **`fiu_fail`**, entered without the lock. -/
theorem leaves_fiuFail : Leaves ends fiuFail := by
  refine leaves_recInc fun entry n hentry hn => ?_
  have hpos : (0 : ℤ) ≤ n + 1 := by omega
  refine (holds_recCount (ok_false hpos)).bind fun count => Holds.pre ?_ fun t ht => ht.1
  exact Holds.ite (lowers_recDec hentry hn) (lowers_fiuFailLocked hentry hn)

/-- **`fiu_fail`**, entered with the lock held: it sees that `rec_count` was raised. -/
theorem fiuFail_held (hn : 1 ≤ n) :
    Holds ends entry (At n true) fiuFail fun r t => At n true t ∧ r = 0 := by
  refine (holds_recInc (ok_true hn)).bind fun _ => ?_
  refine (holds_recCount (ok_true (by omega))).bind fun count => ?_
  by_cases hgt : count > 1
  · rw [if_pos hgt]
    refine Holds.pre ?_ fun t ht => ht.1
    exact (holds_recDec (ok_true (by omega))).bind fun _ => Holds.pure fun t ht => ⟨ht, rfl⟩
  · rw [if_neg hgt]
    have hstill := @lowers_fiuFailLocked False ⟨0, false⟩ 0 rfl (le_refl 0)
    refine ⟨fun t ht => ?_, hstill.still⟩
    have hcount : count = n + 1 := ht.2
    omega

theorem leaves_fiuEnable : Leaves ends fiuEnable :=
  leaves_pfCreate.bind fun _ => Leaves.ite Plain.pure.leaves leaves_insertPf

theorem leaves_fiuEnableRandom : Leaves ends fiuEnableRandom :=
  leaves_pfCreate.bind fun _ => Leaves.ite Plain.pure.leaves
    ((plain_store _).leaves.bind fun _ => leaves_insertPf)

theorem leaves_fiuEnableExternal : Leaves ends fiuEnableExternal :=
  leaves_pfCreate.bind fun _ => Leaves.ite Plain.pure.leaves
    ((plain_store _).leaves.bind fun _ => leaves_insertPf)

theorem leaves_enableStackPf (func : ℤ) : Leaves ends (enableStackPf func) := by
  refine leaves_pfCreate.bind fun _ => Leaves.ite Plain.pure.leaves ?_
  refine (plain_store _).leaves.bind fun _ => (plain_getFuncEnd func).leaves.bind fun _ => ?_
  exact (plain_store _).leaves.bind fun _ => (plain_store _).leaves.bind fun _ => leaves_insertPf

theorem leaves_fiuEnableStack (self func pos : ℤ) : Leaves ends (fiuEnableStack self func pos) := by
  refine Leaves.ite Plain.pure.leaves ?_
  refine (plain_backtraceWorks self).leaves.bind fun _ => Leaves.ite Plain.pure.leaves ?_
  refine (plain_getFuncEnd func).leaves.bind fun _ => Leaves.ite ?_ (leaves_enableStackPf func)
  exact plain_getFuncStart.leaves.bind fun _ =>
    Leaves.ite Plain.pure.leaves (leaves_enableStackPf func)

theorem leaves_fiuEnableStackByName (self stack pos : ℤ) :
    Leaves ends (fiuEnableStackByName self stack pos) := by
  refine (plain_backtraceWorks self).leaves.bind fun _ => Leaves.ite Plain.pure.leaves ?_
  exact (plain_libc _).leaves.bind fun _ =>
    Leaves.ite Plain.pure.leaves (leaves_fiuEnableStack stack _ pos)

/-- **`fiu_rc_string`**.  A parameter that takes a number has no value in some commands: NULL is read
    then, before anything was done. -/
theorem leaves_fiuRcString (env : RcEnv) (cmd : CString)
    (hnull : Libfiu.fiuRcString env.strtod cmd = .nullNumber → ends) :
    Leaves ends (fiuRcString env cmd) := by
  refine (plain_libc _).leaves.bind fun _ => ?_
  cases hout : Libfiu.fiuRcString env.strtod cmd with
  | reject error => exact Plain.pure.leaves
  | nullNumber => exact fun _ _ hentry hn => holds_ends rfl (hnull hout) hn hentry
  | control error call =>
    cases call with
    | disable => exact leaves_fiuDisable
    | enable => exact leaves_fiuEnable
    | enableRandom => exact leaves_fiuEnableRandom
    | enableStackByName => exact leaves_fiuEnableStackByName _ _ _

/-! ## The control thread

It raises `rec_count` once and for all, so that its own calls of libc are not made to fail. -/

theorem leaves_rcDoCommand (env : RcEnv) : Leaves True (rcDoCommand env) := by
  refine (plain_readLineLoop _ _ (by decide) rfl).leaves.bind fun line =>
    Leaves.ite Plain.pure.leaves ?_
  refine (leaves_fiuRcString env _ fun _ => trivial).bind fun r =>
    Leaves.ite ?_ (plain_rcReplyTo _).leaves
  exact (plain_libc _).leaves.bind fun _ => (plain_rcReplyTo _).leaves

theorem leaves_rcFifoReopen {serve : ℕ → FiuCode ℤ} (hserve : ∀ errcount, Leaves ends (serve errcount))
    (errcount : ℕ) : Leaves ends (rcFifoReopen serve errcount) := by
  refine Leaves.ite ((plain_libc _).leaves.bind fun _ => Plain.pure.leaves) ?_
  refine (plain_libc _).leaves.bind fun _ => Leaves.ite Plain.pure.leaves ?_
  refine (plain_libc _).leaves.bind fun _ => Leaves.ite ?_ (hserve errcount)
  exact (plain_libc _).leaves.bind fun _ => Plain.pure.leaves

theorem leaves_rcFifoLoop (env : RcEnv) :
    ∀ (n errcount : ℕ), Leaves True (rcFifoLoop env n errcount) := by
  intro n
  induction n with
  | zero => exact fun _ _ _ hentry hn => holds_ends rfl trivial hn hentry
  | succ n ih =>
    intro errcount
    refine (leaves_rcDoCommand env).bind fun r => Leaves.ite (ih errcount) ?_
    refine (plain_load _).leaves.bind fun errno => Leaves.ite ?_ ?_
    · refine (plain_libc _).leaves.bind fun _ => (plain_libc _).leaves.bind fun _ => ?_
      exact (plain_libc _).leaves.bind fun _ => leaves_rcFifoReopen ih _
    · refine (plain_libc _).leaves.bind fun _ => (plain_libc _).leaves.bind fun _ => ?_
      exact leaves_rcFifoReopen ih _

/-- **`rc_fifo_thread`**: it never returns. -/
theorem rcFifoThread_holds (env : RcEnv) (turns : ℕ) (hentry : entry.holds = false) (hn : 0 ≤ n)
    (Q : ℤ → FiuTls → Prop) : Holds True entry (At n false) (rcFifoThread env turns) Q := by
  refine (holds_recInc (ok_false hn)).bind fun _ => ?_
  refine (leaves_rcFifoReopen (leaves_rcFifoLoop env turns) 0 hentry (by omega)).bind fun _ => ?_
  exact holds_ends rfl trivial (by omega) hentry

/-- **`fiu_rc_fifo`**, on each of its ways out. -/
theorem leaves_fiuRcFifo : Leaves ends fiuRcFifo := by
  have hstart : Lowers ends startRcFifoThread := by
    refine Lowers.after (plain_libc _) fun _ => Lowers.ite ?_ ?_
    · exact Lowers.after (plain_libc _) fun _ => Lowers.after (plain_libc _) fun _ => lowers_recDec
    · exact Lowers.after (plain_libc _) fun _ => lowers_recDec
  have hout : Lowers ends mkfifoOut := by
    refine Lowers.after (plain_libc _) fun _ => Lowers.after (plain_load _) fun _ => ?_
    exact Lowers.ite (Lowers.after (plain_libc _) fun _ => lowers_recDec) hstart
  have hinner : Leaves ends _fiuRcFifo := by
    refine leaves_recInc (Lowers.after (plain_libc _) fun _ => Lowers.after (plain_libc _) fun _ => ?_)
    refine Lowers.after (plain_store _) fun _ => Lowers.after (plain_libc _) fun _ => ?_
    refine Lowers.after (plain_store _) fun _ => Lowers.after (plain_libc _) fun _ => ?_
    refine Lowers.after (plain_libc _) fun _ => Lowers.after (plain_libc _) fun _ => ?_
    refine Lowers.after (plain_libc _) fun _ => Lowers.after (plain_libc _) fun _ => ?_
    exact Lowers.after (plain_load _) fun _ => Lowers.ite lowers_recDec hout
  refine hinner.bind fun _ => Leaves.ite Plain.pure.leaves ?_
  refine (plain_libc _).leaves.bind fun _ => (plain_store _).leaves.bind fun _ => ?_
  exact (plain_libc _).leaves.bind fun _ => Plain.pure.leaves

/-! ## All threads

Any thread may enter any function when it is in none, and `fiu_fail` from within any call that runs
the code of others, to any depth. A call of the lock waits until the lock lets it. -/

open Threads

/-- A function that a thread may run. -/
inductive Api where
  | fiuInit
  | fiuSetPrngSeed
  | fiuFail
  | fiuEnable
  | fiuEnableRandom
  | fiuEnableExternal
  | fiuEnableStack (self func funcPosInStack : ℤ)
  | fiuEnableStackByName (self stack funcPosInStack : ℤ)
  | fiuDisable
  | fiuRcString (env : RcEnv) (cmd : CString)
  | fiuRcFifo
  | rcFifoThread (env : RcEnv) (turns : ℕ)

def Api.code : Api → FiuCode ℤ
  | .fiuInit => Reentry.fiuInit
  | .fiuSetPrngSeed => Reentry.fiuSetPrngSeed
  | .fiuFail => Reentry.fiuFail
  | .fiuEnable => Reentry.fiuEnable
  | .fiuEnableRandom => Reentry.fiuEnableRandom
  | .fiuEnableExternal => Reentry.fiuEnableExternal
  | .fiuEnableStack self func pos => Reentry.fiuEnableStack self func pos
  | .fiuEnableStackByName self stack pos => Reentry.fiuEnableStackByName self stack pos
  | .fiuDisable => Reentry.fiuDisable
  | .fiuRcString env cmd => Reentry.fiuRcString env cmd
  | .fiuRcFifo => Reentry.fiuRcFifo
  | .rcFifoThread env turns => Reentry.rcFifoThread env turns

/-- The function may come to a call that does not answer: `fiu_rc_string` for a command with a number that
    is not there, and the control thread. -/
def Api.mayEnd : Api → Prop
  | .fiuRcString env cmd => Libfiu.fiuRcString env.strtod cmd = .nullNumber
  | .rcFifoThread _ _ => True
  | _ => False

def Api.isFiuFail : Api → Bool
  | .fiuFail => true
  | _ => false

/-- The call runs code of others, which may call `fiu_fail`. -/
def FiuOp.callsBack : FiuOp → Bool
  | .libc _ | .wtable _ | .externalCb | .efRlock | .efWlock | .efUnlock => true
  | _ => false

/-- A thread. -/
abbrev FiuThread : Type := Calls.Stack FiuOp ℤ FiuTls ℤ

/-- An idle thread may call any function; the code that runs in a call may call `fiu_fail`. -/
def mayEnter (p : Api) : List (Frame FiuOp ℤ FiuTls ℤ) → Bool
  | [] => true
  | f :: _ => f.op.callsBack && p.isFiuFail

/-- The call may answer `r`. -/
def FiuOp.mayAnswer (op : FiuOp) (t : FiuTls) (r : ℤ) : Bool :=
  op.ends = false ∧ (op = .recCount → r = t.recCount)

/-- What the call does to the lock; it waits until it can. -/
def FiuOp.onLock (op : FiuOp) (i : ℕ) (lock : RwLock ℕ) : Option (RwLock ℕ) :=
  match op with
  | .efRlock => lock.rdlock i
  | .efWlock => lock.wrlock i
  | .efUnlock => some (lock.unlock i)
  | _ => some lock

/-- What one sees of a step: the next call; or that a function returned, with the state in which it
    was entered, what it returned, and the state then. -/
inductive FiuSeen where
  | calls (op : FiuOp)
  | returned (entry : FiuTls) (r : ℤ) (exit : FiuTls)

/-- A step of a function that was entered in the state `entry`. -/
def observe (entry : FiuTls) (step : Seen FiuOp ℤ × FiuThread) : FiuSeen × FiuThread :=
  match step.1 with
  | .calls op => (.calls op, step.2)
  | .returns r => (.returned entry r step.2.state, step.2)

/-- A step of thread `i`: it enters a function, or the call at the top of its stack answers. -/
def fiuAct (i : ℕ) (a : Act Api ℤ Unit) (lock : RwLock ℕ) (thread : FiuThread) :
    Option (FiuSeen × RwLock ℕ × FiuThread) :=
  match a, thread.frames with
  | .enter p, frames =>
    if mayEnter p frames then do
      let step ← Stack.settle thread.state frames (p.code thread.state)
      some ((observe thread.state step).1, lock, (observe thread.state step).2)
    else none
  | .back _ _, [] => none
  | .back r _, f :: frames =>
    if f.op.mayAnswer thread.state r then do
      let lock ← f.op.onLock i lock
      let step ← Stack.settle f.entry frames (f.resume r (f.op.after thread.state))
      some ((observe f.entry step).1, lock, (observe f.entry step).2)
    else none

/-- All threads are idle, with `rec_count` at `base`: 0, or what the remote control raised it to. -/
def fiuThreads (base : ℕ → ℕ) : Config ℕ (RwLock ℕ) FiuThread where
  shared := RwLock.free
  locals := fun i => ⟨⟨base i, false⟩, []⟩

/-! ### The invariant -/

/-- What a function returns that was entered with the lock held. -/
def Declines (entry : FiuTls) (r : ℤ) : Prop := entry.holds = true → r = 0

/-- The functions that the thread is in all keep what they guarantee. -/
abbrev Sound (base : FiuTls) (frames : List (Frame FiuOp ℤ FiuTls ℤ)) (t : FiuTls) : Prop :=
  Nested id (Guarantee True) Answers Declines base frames t

/-- **Every function**, entered without the lock. -/
theorem api_holds (p : Api) (hn : 0 ≤ n) :
    Holds p.mayEnd ⟨n, false⟩ (At n false) p.code fun _ => At n false := by
  cases p with
  | fiuInit => exact leaves_fiuInit rfl hn
  | fiuSetPrngSeed =>
    exact ((plain_store .randdXn).bind fun _ => plain_store .randdXnManual).leaves rfl hn
  | fiuFail => exact leaves_fiuFail rfl hn
  | fiuEnable => exact leaves_fiuEnable rfl hn
  | fiuEnableRandom => exact leaves_fiuEnableRandom rfl hn
  | fiuEnableExternal => exact leaves_fiuEnableExternal rfl hn
  | fiuEnableStack self func pos => exact leaves_fiuEnableStack self func pos rfl hn
  | fiuEnableStackByName self stack pos => exact leaves_fiuEnableStackByName self stack pos rfl hn
  | fiuDisable => exact leaves_fiuDisable rfl hn
  | fiuRcString env cmd => exact leaves_fiuRcString env cmd id rfl hn
  | fiuRcFifo => exact leaves_fiuRcFifo rfl hn
  | rcFifoThread env turns => exact rcFifoThread_holds env turns rfl hn _

/-- What a function guarantees that may come to no such call, it guarantees in any case. -/
theorem Guarantee.weaken {ends : Prop} {op : FiuOp} {t : FiuTls} (h : Guarantee ends entry op t) :
    Guarantee True entry op t :=
  ⟨h.ok, h.request, h.counts, fun hop => ⟨trivial, (h.noWayOut hop).2⟩⟩

theorem api_level (p : Api) (hn : 0 ≤ n) :
    (p.code ⟨n, false⟩).Level id (Guarantee True) Answers Declines ⟨n, false⟩ :=
  (((api_holds p hn).safe _ rfl).imp id (fun _ _ hG => hG.weaken)
    fun _ _ ht => ⟨ht, fun h => by cases h⟩).safe

theorem api_goes (p : Api) (hn : 0 ≤ n) : (p.code ⟨n, false⟩).Goes Answers :=
  ((api_holds p hn).safe _ rfl).goes

theorem api_still (p : Api) : Code.Still p.code := (api_holds p (le_refl 0)).still

/-- **`fiu_fail`**, entered from within a call. -/
theorem fiuFail_level {t : FiuTls} (hok : t.Ok) :
    (fiuFail t).Level id (Guarantee True) Answers Declines t ∧ (fiuFail t).Goes Answers := by
  obtain ⟨n, held⟩ := t
  cases held with
  | false => exact ⟨api_level .fiuFail hok.1, api_goes .fiuFail hok.1⟩
  | true =>
    have h : Holds True ⟨n, true⟩ (At n true) fiuFail fun r t => At n true t ∧ r = 0 :=
      fiuFail_held (hok.2 rfl)
    have hlasts := h.safe _ rfl
    exact ⟨(hlasts.imp id (fun _ _ hG => hG) fun _ _ ht => ⟨ht.1, fun _ => ht.2⟩).safe, hlasts.goes⟩

/-- What is seen of a step is as it should be. -/
def FiuSeen.Good : FiuSeen → Prop
  | .calls _ => True
  | .returned entry r exit => exit = entry ∧ (entry.holds = true → r = 0)

/-- A thread: its stack is sound, its functions do nothing between their calls and are nowhere
    undefined, and the lock is where it thinks it is. -/
structure ThreadOk (base : ℕ → ℕ) (i : ℕ) (lock : RwLock ℕ) (thread : FiuThread) : Prop where
  sound : Sound ⟨base i, false⟩ thread.frames thread.state
  still : ∀ f ∈ thread.frames, ∀ r t, (f.resume r t).Still t
  goes : ∀ f ∈ thread.frames, ∀ r t, Answers f.op f.at_ r t → (f.resume r t).Goes Answers
  held : thread.state.holds = true ↔ lock.HeldBy i

section steps

variable {base : ℕ → ℕ} {i j : ℕ} {lock lock' : RwLock ℕ} {thread thread' : FiuThread}

/-- What the call does to the lock is what it does to the thread. -/
theorem onLock_held {op : FiuOp} {t : FiuTls} (h : op.onLock i lock = some lock')
    (hheld : t.holds = true ↔ lock.HeldBy i) : (op.after t).holds = true ↔ lock'.HeldBy i := by
  cases op with
  | efRlock =>
    obtain ⟨-, -, hr⟩ := RwLock.rdlock_eq_some h
    refine iff_of_true rfl (Or.inl ?_)
    rw [hr]
    exact Finset.mem_insert_self i _
  | efWlock =>
    obtain ⟨-, -, hw, -⟩ := RwLock.wrlock_eq_some h
    exact iff_of_true rfl (Or.inr hw)
  | efUnlock =>
    obtain rfl : lock.unlock i = lock' := Option.some.inj h
    obtain ⟨hr, hw⟩ := lock.unlock_self i
    refine iff_of_false (fun h => by cases h) ?_
    rintro (h | h)
    · exact hr h
    · exact hw h
  | _ =>
    cases h
    exact hheld

/-- It is nothing to another thread. -/
theorem onLock_other {op : FiuOp} (hne : i ≠ j) (h : op.onLock i lock = some lock') :
    lock'.HeldBy j ↔ lock.HeldBy j := by
  have hsame : lock.SameFor lock' j := by
    cases op with
    | efRlock => exact RwLock.sameFor_rdlock hne h
    | efWlock => exact RwLock.sameFor_wrlock hne h
    | efUnlock =>
      obtain rfl : lock.unlock i = lock' := Option.some.inj h
      exact RwLock.sameFor_unlock hne
    | _ =>
      cases h
      exact ⟨Iff.rfl, Iff.rfl⟩
  exact or_congr hsame.1 hsame.2

/-- A function runs on to its next call, or to its end. -/
theorem sound_settle {entry : FiuTls} {frames : List (Frame FiuOp ℤ FiuTls ℤ)}
    {m : Run FiuOp ℤ FiuTls ℤ} {b : FiuTls} {step : Seen FiuOp ℤ × FiuThread}
    (hm : m.Level id (Guarantee True) Answers Declines entry) (hbelow : Sound b frames entry)
    (h : Stack.settle entry frames m = some step) :
    Sound b (observe entry step).2.frames (observe entry step).2.state ∧
      (observe entry step).1.Good := by
  obtain ⟨o, thread⟩ := step
  obtain ⟨hsound, hend⟩ := nested_settle hm hbelow h
  cases o with
  | calls op => exact ⟨hsound, trivial⟩
  | returns r =>
    obtain ⟨hexit, hdecl⟩ := hend r rfl
    exact ⟨hsound, hexit, hdecl⟩

theorem answers_of_mayAnswer {op : FiuOp} {t : FiuTls} {r : ℤ} (h : op.mayAnswer t r = true) :
    Answers op t r (op.after t) := by
  obtain ⟨hends, hcount⟩ := of_decide_eq_true h
  exact ⟨rfl, hcount, hends⟩

/-- A function that may be entered guarantees what it has to: only `fiu_fail` is entered from within a
    call. -/
theorem ThreadOk.enters {t : FiuTls} {frames : List (Frame FiuOp ℤ FiuTls ℤ)}
    (h : ThreadOk base i lock ⟨t, frames⟩) {p : Api} (hmay : mayEnter p frames = true) :
    (p.code t).Level id (Guarantee True) Answers Declines t ∧ (p.code t).Goes Answers := by
  cases frames with
  | nil =>
    obtain rfl : t = ⟨base i, false⟩ := h.sound
    exact ⟨api_level p (Int.natCast_nonneg _), api_goes p (Int.natCast_nonneg _)⟩
  | cons f fs =>
    have hp := (Bool.and_eq_true_iff.mp hmay).2
    have hG : Guarantee True f.entry f.op t := h.sound.2.1
    cases p with
    | fiuFail => exact fiuFail_level hG.ok
    | _ => cases hp

/-- **A step** keeps what holds of its thread, and what is seen of it is as it should be. -/
theorem threadOk_act {a : Act Api ℤ Unit} {o : FiuSeen} (h : ThreadOk base i lock thread)
    (hact : fiuAct i a lock thread = some (o, lock', thread')) :
    ThreadOk base i lock' thread' ∧ o.Good := by
  obtain ⟨t, frames⟩ := thread
  cases a with
  | enter p =>
    unfold fiuAct at hact
    dsimp only at hact
    split at hact
    · rename_i hmay
      obtain ⟨step, hstep, hact⟩ := Option.bind_eq_some_iff.mp hact
      cases hact
      obtain ⟨hlevel, hgoes⟩ := h.enters hmay
      obtain ⟨hsound, hgood⟩ := sound_settle hlevel h.sound hstep
      obtain ⟨hstate, hstill⟩ := settle_still (api_still p t) h.still hstep
      obtain ⟨o, c, hsettle, hgoes'⟩ := settle_goes t hgoes h.goes
      rw [hsettle] at hstep
      cases hstep
      cases o with
      | calls op =>
        exact ⟨⟨hsound, hstill, hgoes', by rw [← h.held]; exact hstate ▸ Iff.rfl⟩, hgood⟩
      | returns r =>
        exact ⟨⟨hsound, hstill, hgoes', by rw [← h.held]; exact hstate ▸ Iff.rfl⟩, hgood⟩
    · cases hact
  | back r d =>
    cases frames with
    | nil => cases hact
    | cons f fs =>
      unfold fiuAct at hact
      dsimp only at hact
      split at hact
      · rename_i hmay
        obtain ⟨lock₁, hlock, hact⟩ := Option.bind_eq_some_iff.mp hact
        obtain ⟨step, hstep, hact⟩ := Option.bind_eq_some_iff.mp hact
        cases hact
        obtain ⟨hat, -, hresume, hbelow⟩ := h.sound
        obtain rfl : f.at_ = t := hat
        have hanswers := answers_of_mayAnswer hmay
        have hheld := onLock_held hlock h.held
        obtain ⟨hsound, hgood⟩ := sound_settle (hresume r _ hanswers) hbelow hstep
        obtain ⟨hstate, hstill⟩ := settle_still (h.still f (List.mem_cons_self ..) r _)
          (fun g hg => h.still g (List.mem_cons_of_mem f hg)) hstep
        obtain ⟨o, c, hsettle, hgoes'⟩ := settle_goes f.entry
          (h.goes f (List.mem_cons_self ..) r _ hanswers)
          fun g hg => h.goes g (List.mem_cons_of_mem f hg)
        rw [hsettle] at hstep
        cases hstep
        cases o with
        | calls op =>
          exact ⟨⟨hsound, hstill, hgoes', by rw [← hheld]; exact hstate ▸ Iff.rfl⟩, hgood⟩
        | returns r =>
          exact ⟨⟨hsound, hstill, hgoes', by rw [← hheld]; exact hstate ▸ Iff.rfl⟩, hgood⟩
      · cases hact

/-- A thread that is in no function is as it was at first. -/
theorem ThreadOk.idle (h : ThreadOk base i lock thread) (hidle : thread.frames = []) :
    thread.state.recCount = base i ∧ ¬ lock.HeldBy i := by
  have hsound := h.sound
  rw [hidle] at hsound
  have hstate : thread.state = ⟨base i, false⟩ := hsound
  rw [← h.held, hstate]
  exact ⟨rfl, Bool.false_ne_true⟩

/-- A thread that holds the lock has raised `rec_count`. -/
theorem ThreadOk.counts (h : ThreadOk base i lock thread) (hheld : lock.HeldBy i) :
    1 ≤ thread.state.recCount := by
  have hsound := h.sound
  cases hframes : thread.frames with
  | nil => exact absurd hheld (h.idle hframes).2
  | cons f fs =>
    rw [hframes] at hsound
    exact hsound.2.1.ok.2 (h.held.mpr hheld)

/-- It is nothing to another thread. -/
theorem threadOk_other {a : Act Api ℤ Unit} {o : FiuSeen} {other : FiuThread} (hne : i ≠ j)
    (h : ThreadOk base j lock other) (hact : fiuAct i a lock thread = some (o, lock', thread')) :
    ThreadOk base j lock' other := by
  have hlock : lock'.HeldBy j ↔ lock.HeldBy j := by
    unfold fiuAct at hact
    split at hact
    · split at hact
      · obtain ⟨step, -, hact⟩ := Option.bind_eq_some_iff.mp hact
        cases hact
        exact Iff.rfl
      · cases hact
    · cases hact
    · split at hact
      · obtain ⟨lock₁, hlock, hact⟩ := Option.bind_eq_some_iff.mp hact
        obtain ⟨step, -, hact⟩ := Option.bind_eq_some_iff.mp hact
        cases hact
        exact onLock_other hne hlock
      · cases hact
  exact ⟨h.sound, h.still, h.goes, h.held.trans hlock.symm⟩

/-- **A thread goes on**: it enters a function that it may enter, and its call answers as soon as the lock
    lets it. -/
theorem ThreadOk.progress (h : ThreadOk base i lock thread) :
    (∀ p, mayEnter p thread.frames = true →
      ∃ o thread', fiuAct i (.enter p) lock thread = some (o, lock, thread')) ∧
    ∀ f fs, thread.frames = f :: fs → ∀ r, f.op.mayAnswer thread.state r = true →
      ∀ lock', f.op.onLock i lock = some lock' →
        ∃ o thread', fiuAct i (.back r ()) lock thread = some (o, lock', thread') := by
  obtain ⟨t, frames⟩ := thread
  constructor
  · intro p hmay
    obtain ⟨o, c, hsettle, -⟩ := settle_goes t (h.enters hmay).2 h.goes
    refine ⟨(observe t (o, c)).1, (observe t (o, c)).2, ?_⟩
    simp only [fiuAct, if_pos hmay, hsettle, Option.bind_eq_bind, Option.bind_some]
  · rintro f fs hframes r hmay lock' hlock
    obtain rfl : frames = f :: fs := hframes
    obtain ⟨hat, -⟩ := h.sound
    obtain rfl : f.at_ = t := hat
    obtain ⟨o, c, hsettle, -⟩ := settle_goes f.entry
      (h.goes f (List.mem_cons_self ..) r _ (answers_of_mayAnswer hmay))
      fun g hg => h.goes g (List.mem_cons_of_mem f hg)
    refine ⟨(observe f.entry (o, c)).1, (observe f.entry (o, c)).2, ?_⟩
    simp only [fiuAct, if_pos hmay, hlock, hsettle, Option.bind_eq_bind, Option.bind_some]

end steps

/-- A thread answers its calls and goes on, for whatever it is given. -/
def GoesOn (thread' thread : FiuThread) : Prop :=
  ∃ i r lock lock' o, fiuAct i (.back r ()) lock thread = some (o, lock', thread')

/-- **No thread goes on for ever** without entering a function. -/
theorem goesOn_wellFounded : WellFounded GoesOn := by
  refine Subrelation.wf ?_ (answered_wellFounded (ε := FiuOp) (ρ := ℤ) (σ := FiuTls) (α := ℤ))
  rintro thread' ⟨t, frames⟩ ⟨i, r, lock, lock', o, hact⟩
  cases frames with
  | nil => cases hact
  | cons f fs =>
    unfold fiuAct at hact
    dsimp only at hact
    split at hact
    · obtain ⟨lock₁, -, hact⟩ := Option.bind_eq_some_iff.mp hact
      obtain ⟨⟨o', c⟩, hstep, hact⟩ := Option.bind_eq_some_iff.mp hact
      have hc : c = thread' := by
        cases o' <;> cases hact <;> rfl
      exact ⟨f, fs, r, _, o', rfl, hc ▸ hstep⟩
    · cases hact

theorem reentry_invariant (base : ℕ → ℕ) : Invariant fiuAct (fun _ _ _ _ => True)
    (fun h _ => ∀ e ∈ h, e.2.Good) (fun i _ lock thread => ThreadOk base i lock thread) where
  own := by
    intro h i a lock lock' thread thread' o hI hJ _ hact
    obtain ⟨hok, hgood⟩ := threadOk_act hJ hact
    refine ⟨fun e he => ?_, hok⟩
    rcases List.mem_append.mp he with he | he
    · exact hI e he
    · rw [List.mem_singleton.mp he]
      exact hgood
  other := fun hne _ _ hJ _ hact => threadOk_other hne hJ hact

/-- **Every interleaving, with `fiu_fail` called from within any call.**  After any steps of any threads,
    each entered with its `rec_count` at `base`:

    * a thread that holds the lock has raised `rec_count`;
    * a function that was entered with the lock held does nothing but count, and so does not request
      the lock, which no thread does that holds it;
    * a function that returned, did so with `rec_count` and the lock as it found them, and with 0 when
      the lock was held; so an idle thread does not hold the lock;
    * no function is stuck: each goes on with whatever its call answers, as soon as the lock lets it,
      and a thread may enter what it calls; and this does not go on for ever, so it comes to the return
      (`GoesOn` is well founded);
    * the calls that do not answer are those of the control thread and of a command with a number that
      is NULL, and the lock is not held at them.  Every other function, whatever its calls answer, comes
      to its return as it was entered. -/
theorem rec_count_reentry (base : ℕ → ℕ) (steps : List (ℕ × Act Api ℤ Unit))
    {seen : List (ℕ × FiuSeen)} {c : Config ℕ (RwLock ℕ) FiuThread}
    (h : run fiuAct (fiuThreads base) steps = some (seen, c)) :
    (∀ i, ((c.locals i).state.holds = true ↔ c.shared.HeldBy i) ∧
      (c.shared.HeldBy i → 1 ≤ (c.locals i).state.recCount)) ∧
    (∀ i, ∀ f ∈ (c.locals i).frames, f.entry.holds = true → f.op.counts = true) ∧
    (∀ i f fs, (c.locals i).frames = f :: fs → f.op.requests = true → ¬ c.shared.HeldBy i) ∧
    (∀ i entry r exit, (i, FiuSeen.returned entry r exit) ∈ seen →
      exit = entry ∧ (entry.holds = true → r = 0)) ∧
    (∀ i, (c.locals i).frames = [] →
      (c.locals i).state.recCount = base i ∧ ¬ c.shared.HeldBy i) ∧
    (∀ i, (∀ p, mayEnter p (c.locals i).frames = true →
        ∃ o thread', fiuAct i (.enter p) c.shared (c.locals i) = some (o, c.shared, thread')) ∧
      ∀ f fs, (c.locals i).frames = f :: fs → ∀ r, f.op.mayAnswer (c.locals i).state r = true →
        ∀ lock', f.op.onLock i c.shared = some lock' →
          ∃ o thread', fiuAct i (.back r ()) c.shared (c.locals i) = some (o, lock', thread')) ∧
    WellFounded GoesOn ∧
    (∀ i f fs, (c.locals i).frames = f :: fs → f.op.ends = true → ¬ c.shared.HeldBy i) ∧
    ∀ p : Api, ¬ p.mayEnd → ∀ n : ℕ, (p.code ⟨n, false⟩).Lasts False (fun op _ => op.ends = false) Answers
      fun _ t => t = ⟨n, false⟩ := by
  have hstart : ∀ i, ThreadOk base i RwLock.free ⟨⟨base i, false⟩, []⟩ := by
    intro i
    refine ⟨rfl, fun f hf => absurd hf List.not_mem_nil, fun f hf => absurd hf List.not_mem_nil,
      iff_of_false (fun h => by cases h) ?_⟩
    rintro (h | h)
    · exact absurd h (Finset.notMem_empty i)
    · cases h
  obtain ⟨hseen, hok⟩ := (reentry_invariant base).run steps [] (fun e he => absurd he List.not_mem_nil)
    hstart (guarded_of_forall _ fun _ _ _ _ => trivial) h
  refine ⟨fun i => ⟨(hok i).held, (hok i).counts⟩, fun i f hf => ?_, fun i f fs hframes hreq => ?_,
    fun i entry r exit hmem => hseen _ hmem, fun i hidle => (hok i).idle hidle,
    fun i => (hok i).progress, goesOn_wellFounded, fun i f fs hframes hends => ?_,
    fun p hp n => ?_⟩
  · exact ((hok i).sound.guarantee f hf).counts
  · have hsound := (hok i).sound
    rw [hframes] at hsound
    rw [← (hok i).held, hsound.2.1.request hreq]
    exact Bool.false_ne_true
  · have hsound := (hok i).sound
    rw [hframes] at hsound
    have hfree : (c.locals i).state.holds = false := (hsound.2.1.noWayOut hends).2
    rw [← (hok i).held, hfree]
    exact Bool.false_ne_true
  · refine ((api_holds p (Int.natCast_nonneg n)).safe _ rfl).imp id (fun op t hG => ?_) fun _ _ ht => ht
    rw [← Bool.not_eq_true]
    exact fun hop => hp (hG.noWayOut hop).1

/-- `fiu_enable` on one thread, its `malloc` and then its `wtable_set` calling `fiu_fail`; meanwhile
    `fiu_fail` on another one, which waits for the lock. -/
def reentrySteps : List (ℕ × Act Api ℤ Unit) :=
  [(0, .enter .fiuEnable), (0, .back 0 ()), (0, .enter .fiuFail), (0, .back 0 ()), (0, .back 2 ()),
    (0, .back 0 ()), (0, .back 1000 ()), (0, .back 2000 ()), (0, .back 1 ()), (0, .back 0 ()),
    (0, .back 0 ()), (0, .back 0 ()), (0, .back 0 ()), (0, .back 0 ()), (0, .back 0 ()),
    (1, .enter .fiuFail), (1, .back 0 ()), (1, .back 1 ()),
    (0, .enter .fiuFail), (0, .back 0 ()), (0, .back 2 ()), (0, .back 0 ()),
    (0, .back 1 ()), (0, .back 0 ()), (0, .back 0 ()), (1, .back 0 ())]

theorem rec_count_reentry_enable : ∃ seen c,
    run fiuAct (fiuThreads fun _ => 0) reentrySteps = some (seen, c) ∧
    (c.shared.HeldBy 0 → 1 ≤ (c.locals 0).state.recCount) ∧
    ((c.locals 0).frames = [] → (c.locals 0).state.recCount = 0 ∧ ¬ c.shared.HeldBy 0) ∧
    (c.locals 0).frames.length = 0 ∧ (c.locals 1).frames.length = 1 := by
  have hrun : (run fiuAct (fiuThreads fun _ => 0) reentrySteps).isSome = true := by decide +kernel
  obtain ⟨⟨seen, c⟩, h⟩ := Option.isSome_iff_exists.mp hrun
  have hframes : (run fiuAct (fiuThreads fun _ => 0) reentrySteps).map (fun r =>
      ((r.2.locals 0).frames.length, (r.2.locals 1).frames.length)) = some (0, 1) := by
    decide +kernel
  rw [h] at hframes
  have hmap := Option.some.inj hframes
  obtain ⟨hholds, -, -, -, hidle, -⟩ := rec_count_reentry _ _ h
  exact ⟨seen, c, h, (hholds 0).2, hidle 0, (Prod.mk.inj hmap).1, (Prod.mk.inj hmap).2⟩

end Reentry

end Libfiu
