/-
  Streams, and the table of the streams with injected errors (modules/posix.custom.c).

  1. **The world** — the streams that libc has open, what happened to streams so far, and the table,
     which is a `hash_t` with the addresses of streams as keys.  libc may give a newly opened stream
     any address that no open stream has.

  2. **The table** — `In S h M` says which streams are open, what happened, and what the table maps
     keys to.  One lemma for each of `set_ferror`, `get_ferror` and `clear_ferror` says what it makes
     of this, allocations succeeding.

  3. **The invariant** — `Agree`: the table holds exactly the streams that are open and recorded.

  The history is the specification here: whether a stream is recorded can be told from what happened
  to it, without any table. The table is what the code has instead, with addresses written down as
  keys, and `Agree` is that it comes to the same for the streams that are open.
-/
import Libfiu.HashSpec
import Libfiu.Lib.Text
import Libfiu.PosixCodegen

namespace Libfiu

namespace Posix

open Calls

/-! ## The world

What libc knows of streams, and what the table of the library is to be compared with: the history. -/

/-- What happens to a stream: it is opened or reopened, an injected failure records it, `clearerr` is
    called on it. -/
inductive Event where
  | opened (stream : ℤ)
  | injected (stream : ℤ)
  | cleared (stream : ℤ)
  deriving DecidableEq

/-- **What `ferror` should know**: an injected failure recorded the stream, and it was neither opened
    nor cleared after that. -/
def Recorded (stream : ℤ) (history : List Event) : Prop :=
  ∃ before after, history = before ++ .injected stream :: after ∧
    Event.opened stream ∉ after ∧ Event.cleared stream ∉ after

/-- What an original function does to streams. -/
inductive Lifecycle where
  | opens
  | reopens
  | closes
  | clears
  | other
  deriving DecidableEq

/-- The functions of stdio.h that open and close streams. -/
def lifecycle (name : String) : Lifecycle :=
  if name ∈ ["fopen", "fopen64", "fdopen", "fmemopen", "open_memstream", "popen", "tmpfile",
    "tmpfile64"] then .opens
  else if name ∈ ["freopen", "freopen64"] then .reopens
  else if name ∈ ["fclose", "pclose"] then .closes
  else if name = "clearerr" then .clears
  else .other

/-- The stream that a function closes, reopens or clears, among its arguments. -/
def target (name : String) (args : List ℤ) : ℤ :=
  match lifecycle name with
  | .reopens => args.getD 2 0
  | _ => args.getD 0 0

/-- An address. -/
def IsAddress (p : ℤ) : Prop := 0 < p ∧ p < 2 ^ 64

instance (p : ℤ) : Decidable (IsAddress p) := inferInstanceAs (Decidable (0 < p ∧ p < 2 ^ 64))

/-- The streams that are open, what happened so far, and the table with its `pthread_once_t`. -/
structure World where
  streams : Finset ℤ
  history : List Event
  once : Bool
  table : Option (Hash ℕ)

/-- Before the first call: `streams` are open. -/
def World.start (streams : Finset ℤ) : World := ⟨streams, [], false, none⟩

/-- An original function returns `r`: it may do what libc allows.  A stream that is opened gets an
    address that no open stream has; `freopen` closes its stream when it fails. -/
def World.orig (w : World) (name : String) (args : List ℤ) (r : ℤ) : Option World :=
  let s := target name args
  match lifecycle name with
  | .opens =>
    if r = 0 then some w
    else if IsAddress r ∧ r ∉ w.streams then
      some { w with streams := insert r w.streams, history := w.history ++ [.opened r] }
    else none
  | .reopens =>
    if s ∉ w.streams then none
    else if r = 0 then some { w with streams := w.streams.erase s }
    else if r = s then some { w with history := w.history ++ [.opened s] }
    else none
  | .closes => if s ∉ w.streams then none else some { w with streams := w.streams.erase s }
  | .clears => some { w with history := w.history ++ [.cleared s] }
  | .other => some w

/-- `stream_to_key`: at most 16 characters are written. -/
def streamToKey (stream : ℤ) : CString :=
  ⟨(Text.hex (stream % 2 ^ 64).toNat).take 16, fun h =>
    Text.nul_notMem_hex _ (List.mem_of_mem_take h)⟩

/-- What is left open in a call of a wrapper: what foreign calls answer, what they leave in the
    variables of the thread, and whether allocations succeed. -/
structure Answers where
  answer : Ext → ℤ
  thread : Ext → Tls → Tls
  malloc : Bool

variable (P : Platform)

/-- The foreign calls of a wrapper, in this world. -/
def World.ext (i : Answers) (e : Ext) (t : Tls) (w : World) : Option (ℤ × Tls × World) :=
  match e with
  | .orig name args => (w.orig name args (i.answer e)).map fun w => (i.answer e, i.thread e t, w)
  | .pthreadOnce => some (if w.once then 0 else 1, t, { w with once := true })
  | .hashCreate => some (0, t, { w with table := if i.malloc then some hashCreate else none })
  | .hashSet s => do
    let h ← w.table
    let (ok, h) ← hashSet P i.malloc h (streamToKey s) (some 0xDEAD)
    return (if ok then 1 else 0, t,
      { w with table := some h, history := w.history ++ [.injected s] })
  | .hashGet s => do
    let h ← w.table
    let value ← hashGet P h (streamToKey s)
    return (if value = none then 0 else 0xDEAD, t, w)
  | .hashDel s => do
    let h ← w.table
    let (ok, h) ← hashDel P i.malloc h (streamToKey s)
    return (if ok then 1 else 0, t, { w with table := some h })
  | e => some (i.answer e, i.thread e t, w)

/-! ## Keys

The table is a hash table of strings, so an address has to be written down first. -/

/-- Different addresses have different keys. -/
theorem streamToKey_inj {p q : ℤ} (hp : IsAddress p) (hq : IsAddress q)
    (h : streamToKey p = streamToKey q) : p = q := by
  have hwhole : ∀ {x : ℤ}, IsAddress x →
      (streamToKey x).bytes = Text.hex (x % 2 ^ 64).toNat := by
    intro x hx
    have hlt : (x % 2 ^ 64).toNat < 16 ^ 16 := by
      have h1 := Int.emod_lt_of_pos x (show (0 : ℤ) < 2 ^ 64 by decide)
      omega
    exact List.take_of_length_le (Text.length_hex_le (by decide) hlt)
  have hbytes := congrArg CString.bytes h
  rw [hwhole hp, hwhole hq] at hbytes
  have hmod := Text.hex_injective hbytes
  obtain ⟨hp0, hp1⟩ := hp
  obtain ⟨hq0, hq1⟩ := hq
  rw [Int.emod_eq_of_lt (by omega) hp1, Int.emod_eq_of_lt (by omega) hq1] at hmod
  omega

/-! ## What is recorded

A stream is recorded when the last event about it is an injected failure. -/

/-- A failure that was just injected. -/
theorem recorded_injected (s : ℤ) (h : List Event) : Recorded s (h ++ [.injected s]) :=
  ⟨h, [], rfl, List.not_mem_nil, List.not_mem_nil⟩

/-- Another event adds no record, and takes one away if it opens or clears the stream. -/
theorem recorded_append {s : ℤ} {h : List Event} {e : Event} (he : e ≠ .injected s) :
    Recorded s (h ++ [e]) ↔ Recorded s h ∧ e ≠ .opened s ∧ e ≠ .cleared s := by
  constructor
  · rintro ⟨before, after, heq, hopened, hcleared⟩
    rcases List.eq_nil_or_concat after with rfl | ⟨after', e', rfl⟩
    · have hlast := (List.append_inj' heq rfl).2
      exact absurd (List.cons.inj hlast).1 he
    · have hsplit : h ++ [e] = (before ++ .injected s :: after') ++ [e'] := by
        rw [heq]
        simp
      obtain ⟨rfl, hlast⟩ := List.append_inj' hsplit rfl
      obtain rfl : e = e' := (List.cons.inj hlast).1
      have hmem : ∀ {e'' : Event}, e'' ∉ after' ++ [e] → e'' ∉ after' ∧ e ≠ e'' := by
        intro e'' h
        rw [List.mem_append, List.mem_singleton, not_or] at h
        exact ⟨h.1, Ne.symm h.2⟩
      rw [List.concat_eq_append] at hopened hcleared
      exact ⟨⟨before, after', rfl, (hmem hopened).1, (hmem hcleared).1⟩, (hmem hopened).2,
        (hmem hcleared).2⟩
  · rintro ⟨⟨before, after, rfl, hopened, hcleared⟩, hne, hne'⟩
    refine ⟨before, after ++ [e], by simp, ?_, ?_⟩
    · rw [List.mem_append, List.mem_singleton, not_or]
      exact ⟨hopened, hne.symm⟩
    · rw [List.mem_append, List.mem_singleton, not_or]
      exact ⟨hcleared, hne'.symm⟩

/-! ## The table

The operations of hash.c, in a table that may still have to be created, and the code that calls
them. -/

variable {P} {i : Answers} {S : Finset ℤ} {h : List Event} {M : CString → Option ℕ} {src : Source}
  {α β : Type}

/-- The table is there, with this content. -/
def World.HasTable (P : Platform) (w : World) (M : CString → Option ℕ) : Prop :=
  w.once = true ∧ ∃ t, w.table = some t ∧ t.Table P M

/-- The streams that are open, what happened, and the content of the table, which may still have to
    be created. -/
structure In (P : Platform) (S : Finset ℤ) (h : List Event) (M : CString → Option ℕ) (w : World) :
    Prop where
  streams : w.streams = S
  history : w.history = h
  table : (w.once = false ∧ w.table = none ∧ M = fun _ => none) ∨ w.HasTable P M

/-- Code that leads from worlds to worlds, whatever it does to the thread. -/
abbrev Does (P : Platform) (i : Answers) (pre : World → Prop) (m : Code α)
    (post : α → World → Prop) : Prop :=
  Code.Correct (World.ext P i) (fun _ w => pre w) m fun a _ w => post a w

/-- The same, of code that always ends. -/
abbrev Gives (P : Platform) (i : Answers) (pre : World → Prop) (m : Code α)
    (post : α → World → Prop) : Prop :=
  Code.Returns (World.ext P i) (fun _ w => pre w) m fun a _ w => post a w

/-- One after the other. -/
theorem Gives.bind {m : Code α} {f : α → Code β} {pre : World → Prop} {mid : α → World → Prop}
    {post : β → World → Prop} (hm : Gives P i pre m mid) (hf : ∀ a, Gives P i (mid a) (f a) post) :
    Gives P i pre (m >>= f) post := Code.Returns.bind hm hf

theorem Gives.done {a : α} {pre : World → Prop} : Gives P i pre (pure a) fun _ => pre :=
  Code.Returns.pure fun _ _ h => h

/-- The variables of the thread are nothing to the world. -/
theorem gives_modify {f : Tls → Tls} {pre : World → Prop} :
    Gives P i pre (Code.modify f) fun _ => pre := Code.Returns.modify fun _ _ h => h

/-- One after the other. -/
theorem Does.bind {m : Code α} {f : α → Code β} {pre : World → Prop} {mid : α → World → Prop}
    {post : β → World → Prop} (hm : Does P i pre m mid) (hf : ∀ a, Does P i (mid a) (f a) post) :
    Does P i pre (m >>= f) post := Code.Correct.bind hm hf

theorem Does.done {a : α} {pre : World → Prop} : Does P i pre (pure a) fun _ => pre :=
  Code.Correct.pure fun _ _ h => h

/-- The variables of the thread are nothing to the world. -/
theorem does_modify {f : Tls → Tls} {pre : World → Prop} :
    Does P i pre (Code.modify f) fun _ => pre := Code.Correct.modify fun _ _ h => h

theorem does_get {pre : World → Prop} : Does P i pre Code.get fun _ => pre :=
  Code.Correct.get fun _ _ h => h

/-- A foreign call that is nothing to streams. -/
theorem does_ask {e : Ext} (he : ∀ t w, World.ext P i e t w = some (i.answer e, i.thread e t, w))
    {pre : World → Prop} : Does P i pre (Code.ask e) fun r w => pre w ∧ r = i.answer e := by
  refine Code.Correct.ask fun t w hw r hr => ?_
  rw [he] at hr
  cases hr
  exact ⟨hw, rfl⟩

theorem does_random {pre : World → Prop} : Does P i pre (Code.ask .random) fun _ => pre :=
  Code.Correct.mono (does_ask fun _ _ => rfl) (fun _ _ h => h) fun _ _ _ h => h.1

/-- The table is created, or it is there. -/
theorem gives_ferrorTable (hmalloc : i.malloc = true) :
    Gives P i (In P S h M) ferrorTable fun _ w => In P S h M w ∧ w.HasTable P M := by
  have honce : Gives P i (In P S h M) (Code.ask .pthreadOnce) fun r w =>
      (r ≠ 0 → w.streams = S ∧ w.history = h ∧ w.once = true ∧ M = fun _ => none) ∧
      (r = 0 → In P S h M w ∧ w.HasTable P M) := by
    refine Code.Returns.ask fun t w hw => ⟨_, rfl, ?_⟩
    rcases hw.table with ⟨honce, -, hM⟩ | htable
    · refine ⟨fun _ => ⟨hw.streams, hw.history, rfl, hM⟩, fun h0 => ?_⟩
      simp [honce] at h0
    · refine ⟨fun h1 => ?_, fun _ => ?_⟩
      · simp [htable.1] at h1
      · have hsame : { w with once := true } = w := by
          cases w
          cases htable.1
          rfl
        show In P S h M { w with once := true } ∧ World.HasTable P { w with once := true } M
        rw [hsame]
        exact ⟨hw, htable⟩
  refine honce.bind fun r => Code.Returns.ite (fun hr => ?_) fun hr => ?_
  · refine Code.Returns.mono (P := fun _ w => w.streams = S ∧ w.history = h ∧ w.once = true ∧
      M = fun _ => none) ?_ (fun _ w hw => hw.1 hr) fun _ _ _ hw => hw
    refine gives_modify.bind fun _ => ?_
    have hcreate : Gives P i (fun w => w.streams = S ∧ w.history = h ∧ w.once = true ∧
        M = fun _ => none) (Code.ask .hashCreate) fun _ w => In P S h M w ∧ w.HasTable P M := by
      refine Code.Returns.ask fun t w hw => ⟨_, rfl, ?_⟩
      obtain ⟨hS, hh, hdone, rfl⟩ := hw
      rw [hmalloc]
      have htable : World.HasTable P { w with table := some hashCreate } fun _ => none :=
        ⟨hdone, hashCreate, rfl, hashCreate_table⟩
      exact ⟨⟨hS, hh, Or.inr htable⟩, htable⟩
    exact hcreate.bind fun _ => gives_modify
  · exact Code.Returns.pure fun _ w hw => hw.2 (not_not.mp hr)

/-- `set_ferror` -/
theorem gives_setFerror (hmalloc : i.malloc = true) (stream : ℤ) :
    Gives P i (In P S h M) (setFerror stream) fun _ =>
      In P S (h ++ [.injected stream]) (Function.update M (streamToKey stream) (some 0xDEAD)) := by
  refine (gives_ferrorTable hmalloc).bind fun _ => ?_
  have hset : Gives P i (fun w => In P S h M w ∧ w.HasTable P M) (Code.ask (.hashSet stream))
      fun _ => In P S (h ++ [.injected stream])
        (Function.update M (streamToKey stream) (some 0xDEAD)) := by
    refine Code.Returns.ask fun t w hw => ?_
    obtain ⟨⟨hS, hh, -⟩, honce, table, htable, hM⟩ := hw
    obtain ⟨table', hset, hM', -⟩ := hashSet_spec hM (streamToKey stream) 0xDEAD
    refine ⟨_, by simp [World.ext, htable, hmalloc, hset]; rfl, hS, ?_, Or.inr ⟨honce, table', rfl, hM'⟩⟩
    show w.history ++ [.injected stream] = _
    rw [hh]
  exact hset.bind fun _ => Gives.done

/-- `get_ferror` -/
theorem gives_getFerror (hmalloc : i.malloc = true) (stream : ℤ) :
    Gives P i (In P S h M) (getFerror stream) fun recorded w =>
      In P S h M w ∧ (recorded = true ↔ M (streamToKey stream) ≠ none) := by
  refine (gives_ferrorTable hmalloc).bind fun _ => ?_
  have hget : Gives P i (fun w => In P S h M w ∧ w.HasTable P M) (Code.ask (.hashGet stream))
      fun r w => In P S h M w ∧ r = if M (streamToKey stream) = none then 0 else 0xDEAD := by
    refine Code.Returns.ask fun t w hw => ?_
    obtain ⟨hIn, honce, table, htable, hM⟩ := hw
    exact ⟨_, by simp [World.ext, htable, hashGet_eq hM]; rfl, hIn, rfl⟩
  refine hget.bind fun r => Code.Returns.pure fun _ w hw => ⟨hw.1, ?_⟩
  rw [hw.2, decide_eq_true_iff]
  by_cases hM : M (streamToKey stream) = none
  · rw [if_pos hM]
    exact iff_of_false (fun h => h rfl) (not_not.mpr hM)
  · rw [if_neg hM]
    exact iff_of_true (by decide) hM

/-- `clear_ferror` -/
theorem gives_clearFerror (hmalloc : i.malloc = true) (stream : ℤ) :
    Gives P i (In P S h M) (clearFerror stream) fun _ =>
      In P S h (Function.update M (streamToKey stream) none) := by
  refine (gives_ferrorTable hmalloc).bind fun _ => ?_
  have hdel : Gives P i (fun w => In P S h M w ∧ w.HasTable P M) (Code.ask (.hashDel stream))
      fun _ => In P S h (Function.update M (streamToKey stream) none) := by
    refine Code.Returns.ask fun t w hw => ?_
    obtain ⟨⟨hS, hh, -⟩, honce, table, htable, hM⟩ := hw
    obtain ⟨table', hdel, hM', -⟩ := hashDel_spec hM (streamToKey stream)
    exact ⟨_, by simp [World.ext, htable, hmalloc, hdel]; rfl, hS, hh,
      Or.inr ⟨honce, table', rfl, hM'⟩⟩
  exact hdel.bind fun _ => Gives.done

/-! ## The other code of the wrappers

It does nothing to streams. -/

theorem does_initIfNull {pre : World → Prop} (name : String) :
    Does P i pre (initIfNull src name) fun _ => pre := by
  have horig : Does P i pre (getOrig src name) fun _ => pre := does_get.bind fun _ => Does.done
  refine horig.bind fun addr => Code.Correct.ite (fun _ => ?_) fun _ => Does.done
  have hask : Does P i pre (Code.ask (.libcSymbol name)) fun _ => pre :=
    Code.Correct.mono (does_ask fun _ _ => rfl) (fun _ _ h => h) fun _ _ _ h => h.1
  refine does_modify.bind fun _ => does_modify.bind fun _ => hask.bind fun addr => ?_
  exact does_modify.bind fun _ => does_modify.bind fun _ => does_modify

theorem does_failErrno {pre : World → Prop} (l : Locals) :
    Does P i pre (failErrno l) fun _ => pre := by
  refine does_get.bind fun t => Code.Correct.ite (fun _ => ?_) fun _ => does_modify
  refine does_random.bind fun r => ?_
  split
  · exact does_modify
  · exact Code.Correct.stuck

/-- Where a body that makes a function fail leads: out of it when its point of failure fires. -/
def Flow.Leads (l : Locals) (pre : World → Prop) (post : ℤ → World → Prop) (fires : Prop) :
    Flow → World → Prop
  | .next l' => fun w => l' = l ∧ ¬ fires ∧ pre w
  | .exit r => post r
  | .ret _ => fun _ => False

/-- A body that makes a function fail, and what follows it. -/
theorem does_bodyFail {fiuName : String} {fail : Code ℤ} {l : Locals} {rest : Locals → Code ℤ}
    {pre : World → Prop} {post : ℤ → World → Prop}
    (hfail : i.answer (.fiuFail fiuName) ≠ 0 → Does P i pre fail post)
    (hrest : i.answer (.fiuFail fiuName) = 0 → Does P i pre (rest l) post) :
    Does P i pre (do (← bodyFail fiuName fail l).follow rest) post := by
  have hbody : Does P i pre (bodyFail fiuName fail l)
      (Flow.Leads l pre post (i.answer (.fiuFail fiuName) ≠ 0)) := by
    refine Does.bind (does_ask fun _ _ => rfl) fun r => Code.Correct.ite (fun hr => ?_) fun hr => ?_
    · intro t w hw x hx
      rw [hw.2] at hr
      refine ((hfail hr).bind fun _ => ?_) t w hw.1 x hx
      exact Code.Correct.pure fun _ _ h => h
    · refine Code.Correct.pure fun _ w hw => ⟨rfl, ?_, hw.1⟩
      rw [← hw.2]
      exact hr
  refine hbody.bind fun flow => ?_
  cases flow with
  | next l' =>
    rintro t w ⟨rfl, hnot, hpre⟩ r hr
    exact hrest (not_not.mp hnot) t w hpre r hr
  | exit r => exact does_modify.bind fun _ => Code.Correct.pure fun _ _ h => h
  | ret r => exact fun t w hw => hw.elim

/-! ## The invariant

The table has the streams that are recorded, and those are among the open ones. It survives the
closing of a stream only if that one has no record. -/

/-- The table holds exactly the streams that are open and recorded. -/
structure Agree (S : Finset ℤ) (h : List Event) (M : CString → Option ℕ) : Prop where
  address : ∀ s ∈ S, IsAddress s
  recorded : ∀ s, IsAddress s → (M (streamToKey s) ≠ none ↔ s ∈ S ∧ Recorded s h)

namespace Agree

variable {s : ℤ} (ha : Agree S h M)

include ha

/-- Another stream has another key. -/
theorem update_of_ne (hs : s ∈ S) {s' : ℤ} (hs' : IsAddress s') (hne : s' ≠ s) (v : Option ℕ) :
    Function.update M (streamToKey s) v (streamToKey s') = M (streamToKey s') :=
  Function.update_of_ne (fun h => hne (streamToKey_inj hs' (ha.address s hs) h)) _ _

/-- A failure is recorded in both. -/
theorem injected (hs : s ∈ S) (v : ℕ) :
    Agree S (h ++ [.injected s]) (Function.update M (streamToKey s) (some v)) := by
  refine ⟨ha.address, fun s' hs' => ?_⟩
  by_cases hne : s' = s
  · subst hne
    rw [Function.update_self]
    exact iff_of_true (Option.some_ne_none v) ⟨hs, recorded_injected s' h⟩
  · have hother : Event.injected s ≠ .injected s' := fun he => hne (Event.injected.inj he).symm
    rw [ha.update_of_ne hs hs' hne, recorded_append hother, ha.recorded s' hs']
    simp

/-- A record is deleted in both. -/
theorem cleared (hs : s ∈ S) :
    Agree S (h ++ [.cleared s]) (Function.update M (streamToKey s) none) := by
  refine ⟨ha.address, fun s' hs' => ?_⟩
  rw [recorded_append (by simp)]
  by_cases hne : s' = s
  · subst hne
    rw [Function.update_self]
    simp
  · rw [ha.update_of_ne hs hs' hne, ha.recorded s' hs']
    simp [Ne.symm hne]

/-- A stream that was not open is not in the table. -/
theorem opened (hs : s ∉ S) (haddr : IsAddress s) : Agree (insert s S) (h ++ [.opened s]) M := by
  refine ⟨?_, fun s' hs' => ?_⟩
  · intro s' hs'
    rcases Finset.mem_insert.mp hs' with rfl | hs'
    · exact haddr
    · exact ha.address s' hs'
  · rw [recorded_append (by simp), ha.recorded s' hs', Finset.mem_insert]
    by_cases hne : s' = s
    · subst hne
      simp [hs]
    · simp [hne, Ne.symm hne]

/-- A stream that is reopened, and was not recorded. -/
theorem reopened (hs : s ∈ S) (hM : M (streamToKey s) = none) : Agree S (h ++ [.opened s]) M := by
  refine ⟨ha.address, fun s' hs' => ?_⟩
  rw [recorded_append (by simp), ha.recorded s' hs']
  by_cases hne : s' = s
  · subst hne
    have hnot : ¬ (s' ∈ S ∧ Recorded s' h) := fun h' => (ha.recorded s' hs').mpr h' hM
    simp only [not_and] at hnot
    simp [hs, hnot hs]
  · simp [Ne.symm hne]

/-- A stream that is closed, and was not recorded. -/
theorem closed (hM : M (streamToKey s) = none) : Agree (S.erase s) h M := by
  refine ⟨fun s' hs' => ha.address s' (Finset.mem_of_mem_erase hs'), fun s' hs' => ?_⟩
  rw [Finset.mem_erase]
  by_cases hne : s' = s
  · subst hne
    simp [hM]
  · rw [ha.recorded s' hs']
    simp [hne]

/-- A stream of which the record is deleted, and that is closed. -/
theorem deleted (hs : s ∈ S) : Agree (S.erase s) h (Function.update M (streamToKey s) none) := by
  refine ⟨fun s' hs' => ha.address s' (Finset.mem_of_mem_erase hs'), fun s' hs' => ?_⟩
  rw [Finset.mem_erase]
  by_cases hne : s' = s
  · subst hne
    rw [Function.update_self]
    simp
  · rw [ha.update_of_ne hs hs' hne, ha.recorded s' hs']
    simp [hne]

end Agree

/-- The invariant of the world. -/
def World.Inv (P : Platform) (w : World) : Prop := ∃ S h M, In P S h M w ∧ Agree S h M

/-! ## The originals

Four kinds: those that open, that close, that clear, and all others. -/

/-- What an original does is what the world says it does. -/
theorem does_callOrig {pre : World → Prop} (name : String) (args : List ℤ) :
    Does P i pre (callOrig src name args) fun r w' =>
      r = i.answer (.orig name args) ∧ ∃ w, pre w ∧ w.orig name args r = some w' := by
  have horig : Does P i pre (getOrig src name) fun _ => pre := does_get.bind fun _ => Does.done
  refine horig.bind fun addr => Code.Correct.ite (fun _ => Code.Correct.stuck) fun _ => ?_
  refine Code.Correct.ask fun t w hw r hr => ?_
  obtain ⟨w', hw', rfl⟩ := Option.map_eq_some_iff.mp hr
  exact ⟨rfl, w, hw, hw'⟩

/-- An original of the library keeps the invariant, if the stream that it closes or reopens is not in
    the table. -/
theorem orig_inv {name : String} {args : List ℤ} {r : ℤ} {w w' : World} (hw : In P S h M w)
    (ha : Agree S h M) (horig : w.orig name args r = some w') (hclears : lifecycle name ≠ .clears)
    (hM : lifecycle name = .reopens ∨ lifecycle name = .closes →
      M (streamToKey (target name args)) = none) : w'.Inv P := by
  obtain ⟨rfl, rfl, htable⟩ := hw
  unfold World.orig at horig
  dsimp only at horig
  cases hlife : lifecycle name with
  | opens =>
    rw [hlife] at horig
    dsimp only at horig
    split at horig
    · cases horig
      exact ⟨_, _, M, ⟨rfl, rfl, htable⟩, ha⟩
    · split at horig
      · rename_i hr
        cases horig
        exact ⟨_, _, M, ⟨rfl, rfl, htable⟩, ha.opened hr.2 hr.1⟩
      · cases horig
  | reopens =>
    have hnone := hM (Or.inl hlife)
    rw [hlife] at horig
    dsimp only at horig
    split at horig
    · cases horig
    · rename_i hs
      split at horig
      · cases horig
        exact ⟨_, _, M, ⟨rfl, rfl, htable⟩, ha.closed hnone⟩
      · split at horig
        · cases horig
          exact ⟨_, _, M, ⟨rfl, rfl, htable⟩, ha.reopened (not_not.mp hs) hnone⟩
        · cases horig
  | closes =>
    have hnone := hM (Or.inr hlife)
    rw [hlife] at horig
    dsimp only at horig
    split at horig
    · cases horig
    · cases horig
      exact ⟨_, _, M, ⟨rfl, rfl, htable⟩, ha.closed hnone⟩
  | clears => exact absurd hlife hclears
  | other =>
    rw [hlife] at horig
    cases horig
    exact ⟨_, _, M, ⟨rfl, rfl, htable⟩, ha⟩

/-- An original that closes its stream. -/
theorem orig_closes {name : String} {args : List ℤ} {r : ℤ} {w w' : World} (hw : In P S h M w)
    (hlife : lifecycle name = .closes) (horig : w.orig name args r = some w') :
    In P (S.erase (target name args)) h M w' := by
  obtain ⟨rfl, rfl, htable⟩ := hw
  unfold World.orig at horig
  rw [hlife] at horig
  dsimp only at horig
  split at horig
  · cases horig
  · cases horig
    exact ⟨rfl, rfl, htable⟩

/-- The original `clearerr`. -/
theorem orig_clears {name : String} {args : List ℤ} {r : ℤ} {w w' : World} (hw : In P S h M w)
    (hlife : lifecycle name = .clears) (horig : w.orig name args r = some w') :
    In P S (h ++ [.cleared (target name args)]) M w' := by
  obtain ⟨rfl, rfl, htable⟩ := hw
  unfold World.orig at horig
  rw [hlife] at horig
  cases horig
  exact ⟨rfl, rfl, htable⟩

/-- An original that is nothing to streams. -/
theorem orig_other {name : String} {args : List ℤ} {r : ℤ} {w w' : World}
    (hlife : lifecycle name = .other) (horig : w.orig name args r = some w') : w' = w := by
  unfold World.orig at horig
  rw [hlife] at horig
  exact (Option.some.inj horig).symm

end Posix

end Libfiu
