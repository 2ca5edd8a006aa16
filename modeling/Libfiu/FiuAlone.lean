/-
  A thread that has the library for itself does what `Fiu` does.

  There are two models of fiu.c: `fiuStep` does a call in one step, and `threadStep` does it access by
  access.  Here they meet.  A call of `fiuStep` is a way of one thread through its steps:

  1. **`wtable_get`** (`reaches_lookup`) — the loop over the slots ends where `hash_get` says, and the
     walk over the array where `wildcards_find_entry` says;

  2. **The point** (`reaches_point`) — the steps between the readings of the flags, with the stores of
     a callback in between, make up `PfInfo.fail`;

  3. **Writing** (`reaches_writing`) — by `finishes_set` and `finishes_del`.

  So every sequence of calls of `Fiu` that return is an interleaving of the threads, with the same
  results and the same state at its end (`fiu_run_interleaves`).

  What the threads do when they take turns is of no use without this: only through it do the results
  about interleavings and those about calls one after another speak of the same functions. The two
  models share the data and the functions that no other thread can come into (`is_wildcard`,
  `ws_matches_s`, the calls of the cache, moving an array), and have the control flow twice: once as
  a function and once as places of a program.

  A way (`Reaches`) is a list of steps of one thread, with what was seen of it. Ways are put
  together by `Reaches.trans`, and each part of a call is one lemma: it begins where the thread is
  when the part begins, and ends where the sequential function says that it ends.
-/
import Libfiu.FiuLinear
import Libfiu.FiuOnetime

namespace Libfiu

open Threads Probing

variable {W : Type} {P : Platform} {l : Linker} {i : ℕ}

/-- Thread `i` comes from `th` to `th'` on its own, without returning from its call. -/
def Reaches (P : Platform) (l : Linker) (i : ℕ) (s : Shared W) (th : Thread W) (s' : Shared W)
    (th' : Thread W) : Prop :=
  ∃ os, Leads (threadStep P l) i s th os s' th' ∧ ∀ r, Event.returned r ∉ os

namespace Reaches

variable {s s' s'' : Shared W} {th th' th'' : Thread W}

/-- No step. -/
theorem refl (s : Shared W) (th : Thread W) : Reaches P l i s th s th :=
  ⟨[], .refl s th, fun _ h => absurd h List.not_mem_nil⟩

/-- A step, and then the others. -/
theorem step {a : Choice W} {e : Event} (hstep : threadStep P l i a s th = some (e, s', th'))
    (he : ∀ r, e ≠ .returned r) (h : Reaches P l i s' th' s'' th'') : Reaches P l i s th s'' th'' := by
  obtain ⟨os, hleads, hos⟩ := h
  refine ⟨e :: os, .step hstep hleads, fun r hr => ?_⟩
  rcases List.mem_cons.mp hr with hr | hr
  · exact he r hr.symm
  · exact hos r hr

/-- One way after another. -/
theorem trans (h : Reaches P l i s th s' th') (h' : Reaches P l i s' th' s'' th'') :
    Reaches P l i s th s'' th'' := by
  obtain ⟨os, hleads, hos⟩ := h
  obtain ⟨os', hleads', hos'⟩ := h'
  refine ⟨os ++ os', hleads.trans hleads', fun r hr => ?_⟩
  rcases List.mem_append.mp hr with hr | hr
  · exact hos r hr
  · exact hos' r hr

end Reaches

/-! ## `wtable_get`

The slots are read one after another. The loops go by induction on how many slots are left, and end
where the function of `Hash` or `Wtable` ends.

Also the cache is asked and filled as the sequential `wtable_get` does it, since this is the thread
that reads it and no other one is there. -/

section lookup

variable {caller : Caller} {name : CString} {s : Shared W} {t t' : Wtable ℕ}

/-- The table that is there put there. -/
theorem withTable_self (ht : s.enabledFails = some t) : { s with enabledFails := some t } = s := by
  rw [← ht]

/-- A step of the lookup. -/
theorem reaches_get {pc pc' : GetPc} {s' : Shared W} {th' : Thread W} (ht : s.enabledFails = some t)
    (hstep : getStep P name pc t = some (pc', t'))
    (h : Reaches P l i { s with enabledFails := some t' } (.get caller name pc') s' th') :
    Reaches P l i s (.get caller name pc) s' th' := by
  have hgo : threadStep P l i .next s (.get caller name pc) =
      s.enabledFails.bind fun t => (getStep P name pc t).bind fun r =>
        some (.internal, { s with enabledFails := some r.2 }, .get caller name r.1) := by
    cases pc with
    | done value => cases hstep
    | _ => rfl
  rw [ht, Option.bind_some, hstep, Option.bind_some] at hgo
  exact h.step hgo fun r hr => by cases hr

/-- Where `hash_get` leaves the lookup. -/
def afterHash (value : Option ℕ) : GetPc := if value.isSome then .done value else .cacheGet

/-- The loop of `hash_get`. By induction on the slots that are left, from any place. -/
theorem reaches_probe {entries : List (Entry ℕ)} (ht : s.enabledFails = some t)
    (hs : t.finals.slots = some entries) : ∀ left pos, left = 0 ∨ pos < entries.length →
      Reaches P l i s (.get caller name (.probe left pos)) s (.get caller name
        (afterHash (valueAt entries (probe ((Entry.scheme P).stopsAt name) entries left pos)))) := by
  intro left
  induction left with
  | zero =>
    intro pos _
    refine reaches_get ht rfl ?_
    rw [withTable_self ht]
    exact .refl s _
  | succ left ih =>
    intro pos hpos
    have hlt : pos < entries.length := by omega
    have hslot : entries[pos]? = some entries[pos] := List.getElem?_eq_getElem hlt
    have hnext : left = 0 ∨ (pos + 1) % entries.length < entries.length :=
      Or.inr (Nat.mod_lt _ (by omega))
    have hback : ∀ (pc : GetPc) (th : Thread W), Reaches P l i s (.get caller name pc) s th →
        Reaches P l i { s with enabledFails := some t } (.get caller name pc) s th := by
      intro pc th h
      rw [withTable_self ht]
      exact h
    rw [probe_turn hslot]
    cases hentry : entries[pos] with
    | never =>
      rw [hentry] at hslot
      rw [if_pos (by simp [Entry.isNever]), valueAt, hslot]
      exact reaches_get ht (by
        simp only [getStep, hs, hslot, Option.bind_eq_bind, Option.bind_some]; rfl)
        (hback _ _ (.refl s _))
    | inUse key value =>
      rw [hentry] at hslot
      by_cases hkey : key = name
      · rw [if_pos (Or.inr (by rw [hkey]; rfl)), valueAt, hslot]
        exact reaches_get ht (by
          simp only [getStep, hs, hslot, Option.bind_eq_bind, Option.bind_some, if_pos hkey]; rfl)
          (hback _ _ (.refl s _))
      · rw [if_neg (by simp [Entry.isNever, Entry.key?, hkey])]
        exact reaches_get ht (by
          simp only [getStep, hs, hslot, Option.bind_eq_bind, Option.bind_some, if_neg hkey])
          (hback _ _ (ih _ hnext))
    | removed =>
      rw [hentry] at hslot
      rw [if_neg (by simp [Entry.isNever, Entry.key?])]
      exact reaches_get ht (by simp only [getStep, hs, hslot, Option.bind_eq_bind, Option.bind_some])
        (hback _ _ (ih _ hnext))

/-- The loop of `wildcards_find_entry`. By induction on the slots behind `pos`. -/
theorem reaches_scan {ws : List (Option (Wentry ℕ))} (ht : s.enabledFails = some t)
    (hs : t.slots = some ws) {found : Option (ℕ × Wentry ℕ)} {firstFree : Option ℕ} :
    ∀ (n pos : ℕ) (free : Option ℕ), ws.length - pos ≤ n →
      findEntryFrom name false (ws.drop pos) pos free = some (found, firstFree) →
      Reaches P l i s (.get caller name (.scan pos)) s
        (.get caller name (.cacheSet (found.bind fun e => e.2.value))) := by
  intro n
  induction n with
  | zero =>
    intro pos free hn hfind
    have hend : ws[pos]? = none := List.getElem?_eq_none_iff.mpr (by omega)
    rw [List.drop_eq_nil_of_le (by omega)] at hfind
    cases hfind
    refine reaches_get ht (by
      simp only [getStep, hs, hend, Option.bind_eq_bind, Option.bind_some]; rfl) ?_
    rw [withTable_self ht]
    exact .refl s _
  | succ n ih =>
    intro pos free hn hfind
    by_cases hlt : pos < ws.length
    · have hslot : ws[pos]? = some ws[pos] := List.getElem?_eq_getElem hlt
      have hback : ∀ (pc : GetPc) (th : Thread W), Reaches P l i s (.get caller name pc) s th →
          Reaches P l i { s with enabledFails := some t } (.get caller name pc) s th := by
        intro pc th h
        rw [withTable_self ht]
        exact h
      rw [scan_turn hslot] at hfind
      cases hentry : ws[pos] with
      | none =>
        rw [hentry] at hslot hfind
        exact reaches_get ht (by
          simp only [getStep, hs, hslot, Option.bind_eq_bind, Option.bind_some])
          (hback _ _ (ih (pos + 1) _ (by omega) hfind))
      | some entry =>
        rw [hentry] at hslot hfind
        obtain ⟨matched, hmatch, hfind⟩ := Option.bind_eq_some_iff.mp hfind
        cases matched with
        | true =>
          cases hfind
          exact reaches_get ht (by
            simp only [getStep, hs, hslot, hmatch, Option.bind_eq_bind, Option.bind_some]; rfl)
            (hback _ _ (.refl s _))
        | false =>
          exact reaches_get ht (by
            simp only [getStep, hs, hslot, hmatch, Option.bind_eq_bind, Option.bind_some]; rfl)
            (hback _ _ (ih (pos + 1) free (by omega) hfind))
    · exact ih pos free (by omega) hfind

/-- **`wtable_get`**, from its first step to its last. -/
theorem reaches_lookup {value : Option ℕ} (ht : s.enabledFails = some t)
    (hget : wtableGet P t name = some (value, t')) :
    Reaches P l i s (.get caller name .start) { s with enabledFails := some t' }
      (.get caller name (.done value)) := by
  obtain ⟨v, hhash, hget⟩ := Option.bind_eq_some_iff.mp hget
  obtain ⟨entries, hs, -⟩ := Option.bind_eq_some_iff.mp hhash
  rw [hashGet_of_slots hs] at hhash
  -- the loop over the slots
  have hloop : Reaches P l i s (.get caller name .start) s (.get caller name (afterHash v)) := by
    have hprobe : Reaches P l i s (.get caller name (.probe entries.length
        (P.murmurhash2 name % entries.length))) s (.get caller name (afterHash (valueAt entries
          (findSlot P entries name)))) :=
      reaches_probe ht hs entries.length _ (by
        rcases Nat.eq_zero_or_pos entries.length with h | h
        · exact Or.inl h
        · exact Or.inr (Nat.mod_lt _ h))
    refine reaches_get ht (by simp only [getStep, hs, Option.bind_eq_bind, Option.bind_some]; rfl) ?_
    rw [withTable_self ht, ← Option.some.inj hhash]
    exact hprobe
  refine hloop.trans ?_
  cases v with
  | some id =>
    cases hget
    rw [withTable_self ht]
    exact .refl s _
  | none =>
    obtain ⟨⟨hit, v⟩, hcache, hget⟩ := Option.bind_eq_some_iff.mp hget
    have hfirst : getStep P name .cacheGet t = some (if hit then .done v else .scan 0, t) := by
      simp only [getStep, hcache, Option.bind_eq_bind, Option.bind_some]
    refine reaches_get ht hfirst ?_
    rw [withTable_self ht]
    cases hit with
    | true =>
      cases hget
      rw [withTable_self ht]
      exact .refl s _
    | false =>
      -- the walk over the array, and what the cache keeps of it
      obtain ⟨⟨found, free⟩, hfind, hget⟩ := Option.bind_eq_some_iff.mp hget
      obtain ⟨⟨ok, c⟩, hset, hget⟩ := Option.bind_eq_some_iff.mp hget
      cases hget
      obtain ⟨ws, hws, hfind⟩ := Option.bind_eq_some_iff.mp hfind
      have hset' : cacheSet P t.wcache name (found.bind fun e => e.2.value) = some (ok, c) := hset
      refine (reaches_scan ht hws ws.length 0 none (by omega) hfind).trans (reaches_get ht ?_ (.refl _ _))
      simp only [getStep, hset', Option.bind_eq_bind, Option.bind_some]

end lookup

/-! ## The point

A call that is on its own decides as `PfInfo.fail` does. The callback is cut into its stores, of
which there may be as many as it likes; what it leaves is what the sequential model says that it
leaves. -/

section point

variable {caller : Caller} {name : CString} {id : ℕ} {s s' : Shared W} {th' : Thread W} {pf : PfInfo W}

/-- The state with another point at `id`, and what else a call changes on its way. -/
def Shared.withPoint (s : Shared W) (id : ℕ) (pf : PfInfo W) (xn : UInt32) (world : W) : Shared W :=
  { s with pfs := s.pfs.set id pf, randdXn := xn, world := world }

/-- The point that was put there can be read. -/
theorem deref_withPoint (hpf : s.deref id = some pf) (q : PfInfo W) (xn : UInt32) (world : W) :
    (s.withPoint id q xn world).deref id = some q := by
  obtain ⟨t, ht, hat⟩ := Option.bind_eq_some_iff.mp hpf
  have hlt : id < s.pfs.length := (List.getElem?_eq_some_iff.mp (Fiu.deref_eq_some hpf)).1
  have hget : (s.pfs.set id q)[id]? = some q := List.getElem?_set_self hlt
  unfold Fiu.pfAt at hat
  split at hat
  · cases hat
  · rename_i hlive
    show s.enabledFails.bind _ = some q
    rw [ht, Option.bind_some, Fiu.pfAt, if_neg hlive]
    exact hget

/-- The point that is there, put there, changes nothing. -/
theorem withPoint_self (hpf : s.deref id = some pf) : s.withPoint id pf s.randdXn s.world = s := by
  rw [Shared.withPoint, set_getElem?_self (Fiu.deref_eq_some hpf)]

/-- Of two points that are put there the last one stays. -/
theorem withPoint_withPoint (s : Shared W) (id : ℕ) (pf q : PfInfo W) (xn xn' : UInt32) (w w' : W) :
    (s.withPoint id pf xn w).withPoint id q xn' w' = s.withPoint id q xn' w' := by
  simp only [Shared.withPoint, List.set_set]

/-- A step on the point. -/
theorem reaches_on {a : Choice W} {e : Event} {f : Fiu W} {pc pc' : PointPc}
    (hstep : pointStep P l i caller id a s.toFiu pc = some (e, f, pc'))
    (h : Reaches P l i { f with enabledFailsLock := s.enabledFailsLock } (.point caller name id pc')
      s' th') : Reaches P l i s (.point caller name id pc) s' th' := by
  have hquiet : ∀ r, e ≠ .returned r := by
    obtain ⟨pf, pf', -, hmove, -⟩ := pointStep_moves hstep
    intro r hr
    cases hmove <;> cases hr
  have hgo : threadStep P l i a s (.point caller name id pc) =
      (pointStep P l i caller id a s.toFiu pc).bind fun r =>
        some (r.1, { r.2.1 with enabledFailsLock := s.enabledFailsLock },
          .point caller name id r.2.2) := by
    cases pc with
    | done result =>
      obtain ⟨pf, -, hnone⟩ := Option.bind_eq_some_iff.mp hstep
      cases hnone
    | _ => cases a <;> rfl
  rw [hstep, Option.bind_some] at hgo
  exact h.step hgo hquiet

/-- Where the `switch` leaves a call. -/
def afterSwitch (fails : Bool) : PointPc := if fails then .exitFail else .testFlagsPass

/-- Out of the `switch`. -/
theorem reaches_switched {fails : Bool} {a : Choice W} {pc : PointPc}
    (hstep : pointStep P l i caller id a s.toFiu pc = some (switched fails id s.toFiu)) :
    Reaches P l i s (.point caller name id pc) s (.point caller name id (afterSwitch fails)) := by
  cases fails with
  | true => exact reaches_on hstep (.refl s _)
  | false => exact reaches_on hstep (.refl s _)

/-- A store of the callback. -/
theorem reaches_store (hpf : s.deref id = some pf) {q : PfInfo W} {xn : UInt32} {world : W}
    (x : CallbackStore W) (h : Reaches P l i (s.withPoint id (q.stored x) xn (x.worldAfter world))
      (.point caller name id .callback) s' th') :
    Reaches P l i (s.withPoint id q xn world) (.point caller name id .callback) s' th' := by
  have hq := deref_withPoint hpf q xn world
  have hstep : pointStep P l i caller id (.store x) (s.withPoint id q xn world).toFiu .callback
      = some (.internal, ((s.withPoint id q xn world).withPoint id (q.stored x) xn
          (x.worldAfter world)).toFiu, .callback) := by
    simp only [pointStep, Option.bind_eq_bind]
    rw [hq, Option.bind_some]
    rfl
  refine reaches_on hstep ?_
  rw [withPoint_withPoint]
  exact h

/-- All that the callback does. -/
theorem reaches_stores (hpf : s.deref id = some pf) (r : CallbackResult) (world : W) :
    Reaches P l i s (.point caller name id .callback)
      (s.withPoint id { pf with failnum := r.failnum, failinfo := r.failinfo, flags := r.flags }
        s.randdXn world) (.point caller name id .callback) := by
  have h : Reaches P l i (s.withPoint id pf s.randdXn s.world) (.point caller name id .callback)
      (s.withPoint id { pf with failnum := r.failnum, failinfo := r.failinfo, flags := r.flags }
        s.randdXn world) (.point caller name id .callback) :=
    reaches_store hpf (.failnum r.failnum) <| reaches_store hpf (.failinfo r.failinfo) <|
      reaches_store hpf (.flags r.flags) <| reaches_store hpf (.world world) (.refl _ _)
  rw [withPoint_self hpf] at h
  exact h

/-- **The `switch`**, with the stores of the callback. -/
theorem reaches_decide (hpf : s.deref id = some pf) {fails : Bool} {pf' : PfInfo W} {xn : UInt32}
    {world : W} (hdecide : pf.decide P l caller s.randdXn s.world = (fails, pf', xn, world)) :
    Reaches P l i s (.point caller name id .decide) (s.withPoint id pf' xn world)
      (.point caller name id (afterSwitch fails)) := by
  unfold PfInfo.decide at hdecide
  split at hdecide
  · rename_i hmethod
    cases hdecide
    rw [withPoint_self hpf]
    apply reaches_switched (a := .next)
    simp only [pointStep, hpf, hmethod, Option.bind_eq_bind, Option.bind_some]
  · -- the number is read and written in two steps
    rename_i probability hmethod
    simp only [Prod.mk.injEq] at hdecide
    obtain ⟨rfl, rfl, rfl, rfl⟩ := hdecide
    have hread : pointStep P l i caller id .next s.toFiu .decide
        = some (.internal, s.toFiu, .randdStore probability s.randdXn) := by
      simp only [pointStep, hpf, hmethod, Option.bind_eq_bind, Option.bind_some]
    have hstore : pointStep P l i caller id .next s.toFiu (.randdStore probability s.randdXn)
        = some (.internal, (s.withPoint id pf (randdNext s.randdXn) s.world).toFiu,
          .randdLoad probability) := by
      simp only [pointStep, hpf, Option.bind_eq_bind, Option.bind_some, Shared.withPoint,
        set_getElem?_self (Fiu.deref_eq_some hpf)]
    refine reaches_on hread (reaches_on hstore (reaches_switched (a := .next) ?_))
    have hpf' := deref_withPoint hpf pf (randdNext s.randdXn) s.world
    simp only [pointStep, Option.bind_eq_bind]
    rw [hpf', Option.bind_some]
    rfl
  · rename_i externalCb hmethod
    have hcall : pointStep P l i caller id .next s.toFiu .decide = some (.internal, s.toFiu, .callback) := by
      simp only [pointStep, hpf, hmethod, Option.bind_eq_bind, Option.bind_some]
    simp only [Prod.mk.injEq] at hdecide
    obtain ⟨rfl, rfl, rfl, rfl⟩ := hdecide
    generalize externalCb s.world pf.name pf.failnum pf.failinfo pf.flags = result
    refine reaches_on hcall ((reaches_stores hpf result.1 result.2).trans ?_)
    apply reaches_switched (a := .callbackRet result.1.ret)
    simp only [pointStep, Option.bind_eq_bind]
    rw [deref_withPoint hpf, Option.bind_some]
  · rename_i stack hmethod
    cases hdecide
    rw [withPoint_self hpf]
    apply reaches_switched (a := .next)
    simp only [pointStep, hpf, hmethod, Option.bind_eq_bind, Option.bind_some]

/-- The state with what `fiu_failinfo` is to give. -/
def Shared.withFailinfo (s : Shared W) (thread : ℕ) (failinfo : Addr) : Shared W :=
  { s with lastFailinfo := Function.update s.lastFailinfo thread failinfo }

/-- The state after the part of a call that follows the lookup. -/
def Shared.afterCall (s : Shared W) (caller : Caller) (id : ℕ) (call : PfCall W) : Shared W :=
  (call.failinfo.elim s (s.withFailinfo caller.thread)).withPoint id call.pf call.randdXn call.world

/-- A step that leaves everything as it is. -/
theorem reaches_read {pc pc' : PointPc}
    (hstep : pointStep P l i caller id .next s.toFiu pc = some (.internal, s.toFiu, pc')) :
    Reaches P l i s (.point caller name id pc) s (.point caller name id pc') :=
  reaches_on hstep (.refl s _)

/-- A step that writes to the point. -/
theorem reaches_update {q : PfInfo W} {pc pc' : PointPc}
    (hstep : pointStep P l i caller id .next s.toFiu pc = some (.internal, s.setPf id q, pc')) :
    Reaches P l i s (.point caller name id pc) (s.withPoint id q s.randdXn s.world)
      (.point caller name id pc') :=
  reaches_on hstep (.refl _ _)

/-- The end of a call that fails with `failnum`. -/
theorem reaches_failed (hpf : s.deref id = some pf) (failnum : ℤ) :
    Reaches P l i s (.point caller name id (.testFlagsFail failnum))
      (s.withPoint id { pf with
        lock := if pf.onetime then none else pf.lock
        failedOnce := pf.failedOnce || pf.onetime } s.randdXn s.world)
      (.point caller name id (.done failnum)) := by
  have htest : pointStep P l i caller id .next s.toFiu (.testFlagsFail failnum)
      = some (.internal, s.toFiu, if pf.onetime then .setFailedOnce failnum else .done failnum) := by
    simp only [pointStep, hpf, Option.bind_eq_bind, Option.bind_some]
  refine (reaches_read htest).trans ?_
  by_cases hone : pf.onetime = true
  · have hset : pointStep P l i caller id .next s.toFiu (.setFailedOnce failnum)
        = some (.internal, s.setPf id { pf with failedOnce := true }, .unlockFail failnum) := by
      simp only [pointStep, hpf, Option.bind_eq_bind, Option.bind_some]
    have hpf' := deref_withPoint hpf { pf with failedOnce := true } s.randdXn s.world
    have hunlock : pointStep P l i caller id .next
        (s.withPoint id { pf with failedOnce := true } s.randdXn s.world).toFiu (.unlockFail failnum)
        = some (.internal, (s.withPoint id { pf with failedOnce := true } s.randdXn s.world).setPf id
            { pf with failedOnce := true, lock := none }, .done failnum) := by
      simp only [pointStep, Option.bind_eq_bind]
      rw [hpf', Option.bind_some]
    have hend : Reaches P l i (s.withPoint id { pf with failedOnce := true } s.randdXn s.world)
        (.point caller name id (.unlockFail failnum)) _ _ := reaches_update hunlock
    rw [withPoint_withPoint] at hend
    rw [if_pos hone, if_pos hone, hone, Bool.or_true]
    exact (reaches_update hset).trans hend
  · rw [if_neg hone, if_neg hone, Bool.eq_false_iff.mpr hone, Bool.or_false, withPoint_self hpf]
    exact .refl s _

/-- **After the decision**: `exit_fail`, or past it. -/
theorem reaches_finish (hpf : s.deref id = some pf) (fails taken : Bool) :
    Reaches P l i s (.point caller name id (afterSwitch fails))
      (s.afterCall caller id (PfInfo.finish taken (fails, pf, s.randdXn, s.world)))
      (.point caller name id (.done (if fails then pf.failnum else 0))) := by
  cases fails with
  | false =>
    have htest : pointStep P l i caller id .next s.toFiu .testFlagsPass
        = some (.internal, s.toFiu, if pf.onetime then .unlockPass else .done 0) := by
      simp only [pointStep, hpf, Option.bind_eq_bind, Option.bind_some]
    refine (reaches_read htest).trans ?_
    by_cases hone : pf.onetime = true
    · have hunlock : pointStep P l i caller id .next s.toFiu .unlockPass
          = some (.internal, s.setPf id { pf with lock := none }, .done 0) := by
        simp only [pointStep, hpf, Option.bind_eq_bind, Option.bind_some]
      rw [if_pos hone]
      simpa [Shared.afterCall, PfInfo.finish, hone] using reaches_update hunlock
    · rw [if_neg hone]
      simpa [Shared.afterCall, PfInfo.finish, hone, withPoint_self hpf] using Reaches.refl s _
  | true =>
    -- the failinfo, then the failnum, which is read once
    have hinfo : pointStep P l i caller id .next s.toFiu .exitFail
        = some (.internal, (s.withFailinfo caller.thread pf.failinfo).toFiu, .readFailnum) := by
      simp only [pointStep, hpf, Option.bind_eq_bind, Option.bind_some]
      rfl
    have hpf' : (s.withFailinfo caller.thread pf.failinfo).deref id = some pf := hpf
    have hnum : pointStep P l i caller id .next (s.withFailinfo caller.thread pf.failinfo).toFiu
        .readFailnum = some (.internal, (s.withFailinfo caller.thread pf.failinfo).toFiu,
          .testFlagsFail pf.failnum) := by
      simp only [pointStep, hpf', Option.bind_eq_bind, Option.bind_some]
    refine reaches_on hinfo ((reaches_read hnum).trans ?_)
    exact reaches_failed hpf' pf.failnum

/-- What else a call changes is on its way already. -/
theorem withPoint_afterCall (s : Shared W) (id : ℕ) (pf : PfInfo W) (xn : UInt32) (world : W)
    (caller : Caller) (call : PfCall W) :
    (s.withPoint id pf xn world).afterCall caller id call = s.afterCall caller id call := by
  unfold Shared.afterCall
  cases call.failinfo with
  | none => exact withPoint_withPoint s id _ _ _ _ _ _
  | some failinfo => exact withPoint_withPoint (s.withFailinfo caller.thread failinfo) id pf _ _ _ _ _

/-- From the `switch` to the end. -/
theorem reaches_decided (hpf : s.deref id = some pf) {taken : Bool} {result : ℤ}
    (hresult : (PfInfo.finish taken (pf.decide P l caller s.randdXn s.world)).reply.result = some result) :
    Reaches P l i s (.point caller name id .decide)
      (s.afterCall caller id (PfInfo.finish taken (pf.decide P l caller s.randdXn s.world)))
      (.point caller name id (.done result)) := by
  generalize hdecide : pf.decide P l caller s.randdXn s.world = decision at hresult
  obtain ⟨fails, pf', xn, world⟩ := decision
  rw [PfInfo.finish_result, Option.some.injEq] at hresult
  have hend : Reaches P l i _ (.point caller name id (afterSwitch fails)) _ _ :=
    reaches_finish (deref_withPoint hpf pf' xn world) fails taken
  rw [withPoint_afterCall] at hend
  rw [← hresult]
  exact (reaches_decide hpf hdecide).trans hend

/-- **`fiu_fail` once it has found the point**, if it returns. -/
theorem reaches_point (hpf : s.deref id = some pf) (hthread : caller.thread = i) {result : ℤ}
    (hresult : (pf.fail P l caller s.randdXn s.world).reply.result = some result) :
    Reaches P l i s (.point caller name id .testFlags)
      (s.afterCall caller id (pf.fail P l caller s.randdXn s.world))
      (.point caller name id (.done result)) := by
  have hflags : pointStep P l i caller id .next s.toFiu .testFlags
      = some (.internal, s.toFiu, if pf.onetime then .lock else .decide) := by
    simp only [pointStep, hpf, Option.bind_eq_bind, Option.bind_some]
  refine (reaches_read hflags).trans ?_
  unfold PfInfo.fail at hresult ⊢
  by_cases hone : pf.onetime = true
  · rw [if_pos hone]
    by_cases hheld : pf.lock.isSome = true
    · rw [if_pos ⟨hone, hheld⟩] at hresult
      cases hresult
    · rw [if_neg fun h => hheld h.2] at hresult ⊢
      have hfree : pf.lock = none := Option.not_isSome_iff_eq_none.mp hheld
      -- the lock, and the flag
      have hlocked : pf.locked caller = { pf with lock := some i } := by
        rw [PfInfo.locked, if_pos hone, hthread]
      have htake : pointStep P l i caller id .next s.toFiu .lock
          = some (.internal, s.setPf id (pf.locked caller), .testFailedOnce) := by
        simp only [pointStep, hpf, Option.bind_eq_bind, Option.bind_some, if_pos hfree, hlocked]
      have hpf' := deref_withPoint hpf (pf.locked caller) s.randdXn s.world
      have htest : pointStep P l i caller id .next
          (s.withPoint id (pf.locked caller) s.randdXn s.world).toFiu .testFailedOnce
          = some (.internal, (s.withPoint id (pf.locked caller) s.randdXn s.world).toFiu,
              if pf.failedOnce then .unlockSpent else .decide) := by
        simp only [pointStep, Option.bind_eq_bind]
        rw [hpf', Option.bind_some]
        rfl
      refine (reaches_update htake).trans ((reaches_read htest).trans ?_)
      by_cases hspent : pf.failedOnce = true
      · rw [if_pos ⟨hone, hspent⟩] at hresult
        rw [if_pos hspent, if_pos ⟨hone, hspent⟩]
        cases hresult
        have hunlock : pointStep P l i caller id .next
            (s.withPoint id (pf.locked caller) s.randdXn s.world).toFiu .unlockSpent
            = some (.internal, (s.withPoint id (pf.locked caller) s.randdXn s.world).setPf id pf,
                .done 0) := by
          simp only [pointStep, Option.bind_eq_bind]
          rw [hpf', Option.bind_some, hlocked, ← hfree]
        have hend : Reaches P l i (s.withPoint id (pf.locked caller) s.randdXn s.world)
            (.point caller name id .unlockSpent) _ _ := reaches_update hunlock
        rw [withPoint_withPoint] at hend
        exact hend
      · have hnot : ¬ (pf.onetime = true ∧ pf.failedOnce = true) := fun h => hspent h.2
        rw [if_neg hnot] at hresult
        rw [if_neg hspent, if_neg hnot]
        have hend : Reaches P l i _ (.point caller name id .decide) _ _ :=
          reaches_decided hpf' hresult
        rw [withPoint_afterCall] at hend
        exact hend
  · rw [if_neg hone]
    rw [if_neg fun h => hone h.1, if_neg fun h => hone h.1] at hresult ⊢
    have hlocked : pf.locked caller = pf := by
      rw [PfInfo.locked, if_neg hone]
    rw [hlocked] at hresult ⊢
    exact reaches_decided hpf hresult

end point

/-! ## Writing

A writer goes from its first step to its last, one for each access, and leaves the table that the
sequential call leaves.

`Finishes` is defined by the steps of a writer, so it only has to be read from the front; that it
ends where `wtableSet` and `wtableDel` do, is known from `FiuLinear`. -/

section writing

variable {s : Shared W} {t t' : Wtable ℕ}

/-- **`wtable_set` and `wtable_del`**, from where the writer is to the last step. By induction on
    the steps that are left of the call, which are given. -/
theorem reaches_writing {call : Call ℕ} {pc : WritePc} {r : Bool} (h : Finishes P call pc t r t') :
    ∀ {s : Shared W}, s.enabledFails = some t →
      Reaches P l i s (.write call pc) { s with enabledFails := some t' } (.write call (.done r)) := by
  induction h with
  | done r t =>
    intro s ht
    rw [withTable_self ht]
    exact .refl s _
  | @step pc pc' t t₁ t' r hstep _ ih =>
    intro s ht
    have hgo : threadStep P l i .next s (.write call pc) =
        s.enabledFails.bind fun t => (writeStep P call pc t).bind fun r =>
          some (.internal, { s with enabledFails := some r.2 }, .write call r.1) := by
      cases pc with
      | done r => cases hstep
      | _ => rfl
    rw [ht, Option.bind_some, hstep, Option.bind_some] at hgo
    exact (ih rfl).step hgo fun r hr => by cases hr

/-- A call that writes, from taking the lock to giving it back. -/
theorem reaches_wlock {op : WriteOp W} {b : Bool} (hfree : s.enabledFailsLock = RwLock.free)
    (ht : s.enabledFails = some t) (hfin : Finishes P (op.begin s.toFiu).2 .start t b t') :
    Reaches P l i s (.wlock op)
      { (op.begin s.toFiu).1 with enabledFails := some t', enabledFailsLock := RwLock.free }
      (.ret (if b then 0 else -1)) := by
  obtain ⟨k, hk⟩ := Option.isSome_iff_exists.mp
    (RwLock.take_of_not_heldBy (k := s.enabledFailsLock) (by simp [hfree, RwLock.HeldBy, RwLock.free]) i).2
  have hlock : threadStep P l i .next s (.wlock op) = some (.internal,
      { (op.begin s.toFiu).1 with enabledFailsLock := k }, .write (op.begin s.toFiu).2 .start) := by
    simp only [threadStep, hk, Option.bind_eq_bind, Option.bind_some]
  refine Reaches.step hlock (fun r hr => by cases hr) ?_
  have ht' : (op.begin s.toFiu).1.enabledFails = some t := (op.begin_enabledFails s.toFiu).trans ht
  refine (reaches_writing hfin ht').trans (Reaches.step (a := .next) rfl (fun r hr => by cases hr) ?_)
  rw [RwLock.unlock_wrlock hk, hfree]
  exact .refl _ _

end writing

/-! ## Calls

A call that returns in the sequential library returns the same here, if it is left alone. One that
waits for a lock for ever returns in neither. -/

section calls

variable {s : Shared W} {f : Fiu W}

/-- What `Fiu.afterFail` says of the state after a call. -/
theorem afterCall_eq {t : Wtable ℕ} (ht : s.enabledFails = some t) (caller : Caller) (id : ℕ)
    (call : PfCall W) : (s.afterCall caller id call).toFiu = s.toFiu.afterFail t caller id call := by
  unfold Shared.afterCall Fiu.afterFail
  cases call.failinfo <;> simp only [Shared.withPoint, Shared.withFailinfo, Option.elim, ht]

/-- A call leaves the lock of the table as it is. -/
theorem afterCall_lock (s : Shared W) (caller : Caller) (id : ℕ) (call : PfCall W) :
    (s.afterCall caller id call).enabledFailsLock = s.enabledFailsLock := by
  unfold Shared.afterCall
  cases call.failinfo <;> rfl

/-- **`fiu_fail`**, if it returns. -/
theorem reaches_fail {caller : Caller} {name : CString} {reply : FailReply} {result : ℤ}
    (hfree : s.enabledFailsLock = RwLock.free) (hthread : caller.thread = i)
    (h : fiuFail P l s.toFiu caller name = some (reply, f)) (hresult : reply.result = some result) :
    Reaches P l i s (FiuCall.enter l (.fail caller name)) { f with enabledFailsLock := RwLock.free }
      (.ret result) := by
  unfold fiuFail at h
  unfold FiuCall.enter
  by_cases hrec : caller.recCount + 1 > 1
  · rw [if_pos hrec] at h
    cases h
    cases hresult
    rw [← hfree]
    simpa only [if_pos hrec] using Reaches.refl s _
  · rw [if_neg hrec] at h
    simp only [if_neg hrec]
    obtain ⟨k, hk⟩ := Option.isSome_iff_exists.mp
      (RwLock.take_of_not_heldBy (k := s.enabledFailsLock)
        (by simp [hfree, RwLock.HeldBy, RwLock.free]) i).1
    have hback : k.unlock i = RwLock.free := by
      rw [RwLock.unlock_rdlock hk (by simp [hfree, RwLock.free]), hfree]
    have hlock : threadStep P l i .next s (.rlock caller name)
        = some (.internal, { s with enabledFailsLock := k }, .testTable caller name) := by
      simp only [threadStep, hk, Option.bind_eq_bind, Option.bind_some]
    refine Reaches.step hlock (fun r hr => by cases hr) ?_
    -- giving it back
    have hunlock : ∀ {x : Shared W} {r : ℤ}, x.enabledFailsLock = k →
        Reaches P l i x (.runlock r) { x.toFiu with enabledFailsLock := RwLock.free } (.ret r) := by
      intro x r hx
      refine Reaches.step (a := .next) rfl (fun r hr => by cases hr) ?_
      rw [hx, hback]
      exact .refl _ _
    refine Reaches.step (a := .next) rfl (fun r hr => by cases hr) ?_
    cases ht : s.enabledFails with
    | none =>
      simp only [ht] at h
      cases h
      cases hresult
      exact hunlock rfl
    | some t =>
      simp only [ht] at h
      obtain ⟨⟨found, t'⟩, hget, h⟩ := Option.bind_eq_some_iff.mp h
      show Reaches P l i { s with enabledFailsLock := k } (.get caller name .start) _ _
      refine (reaches_lookup (s := { s with enabledFailsLock := k }) ht hget).trans ?_
      cases found with
      | none =>
        cases h
        cases hresult
        exact Reaches.step (a := .next) rfl (fun r hr => by cases hr) (hunlock rfl)
      | some id =>
        obtain ⟨pf, hpf, h⟩ := Option.bind_eq_some_iff.mp h
        cases h
        refine Reaches.step (a := .next) rfl (fun r hr => by cases hr) ?_
        have hderef : ({ s with enabledFails := some t', enabledFailsLock := k } : Shared W).deref id
            = some pf := hpf
        refine (reaches_point hderef hthread hresult).trans ?_
        refine Reaches.step (a := .next) rfl (fun r hr => by cases hr) ?_
        have hend := hunlock (r := result) ((afterCall_lock ({ s with
          enabledFails := some t', enabledFailsLock := k } : Shared W) caller id
            (pf.fail P l caller s.randdXn s.world)).trans rfl)
        rw [afterCall_eq rfl] at hend
        exact hend

/-- Where an enabling call begins. -/
theorem enter_enables {call : FiuCall W} (h : call.enables = true) :
    call.enter l = (call.created l).elim (.ret (-1)) fun pf => .wlock (.insert pf) := by
  unfold FiuCall.enter
  split
  · cases h
  · cases h
  · split
    · rename_i hnone
      rw [hnone]
      rfl
    · rename_i pf hsome
      rw [hsome]
      rfl

/-- **A call**, if it returns. -/
theorem reaches_call {call : FiuCall W} {reply : FiuReply} {result : ℤ}
    (hfree : s.enabledFailsLock = RwLock.free)
    (hthread : ∀ caller name, call = .fail caller name → caller.thread = i)
    (h : fiuStep P l s.toFiu call = some (reply, f)) (hresult : reply.result = some result) :
    Reaches P l i s (call.enter l) { f with enabledFailsLock := RwLock.free } (.ret result) := by
  by_cases henables : call.enables = true
  · rw [fiuStep_created henables] at h
    rw [enter_enables henables]
    cases hcreated : call.created l with
    | none =>
      rw [hcreated] at h
      cases h
      cases hresult
      rw [← hfree]
      exact .refl s _
    | some pf =>
      rw [hcreated] at h
      obtain ⟨⟨r, f'⟩, hinsert, he⟩ := Option.map_eq_some_iff.mp h
      cases he
      cases hresult
      obtain ⟨t, ht, hinsert⟩ := Option.bind_eq_some_iff.mp hinsert
      obtain ⟨⟨success, t'⟩, hset, he⟩ := Option.bind_eq_some_iff.mp hinsert
      cases he
      have hwrite : Reaches P l i s (.wlock (.insert pf)) _ _ :=
        reaches_wlock hfree ht (finishes_set hset)
      exact hwrite
  · cases call with
    | fail caller name =>
      obtain ⟨⟨r, f'⟩, hfail, he⟩ := Option.map_eq_some_iff.mp h
      cases he
      exact reaches_fail hfree (hthread caller name rfl) hfail hresult
    | disable name =>
      obtain ⟨⟨r, f'⟩, hdisable, he⟩ := Option.map_eq_some_iff.mp h
      cases he
      cases hresult
      obtain ⟨t, ht, hdisable⟩ := Option.bind_eq_some_iff.mp hdisable
      obtain ⟨⟨success, t'⟩, hdel, he⟩ := Option.bind_eq_some_iff.mp hdisable
      cases he
      have hwrite : Reaches P l i s (.wlock (.disable name)) _ _ :=
        reaches_wlock hfree ht (finishes_del hdel)
      exact hwrite
    | _ => exact absurd rfl henables

end calls

/-! ## Runs

One call after another is one interleaving of them, in which each thread is idle when another one
begins.

The threads of the calls may be any; the lock is free in between, so who made the last call does not
matter to the next one. -/

/-- What the calls of a history returned, and to whom. -/
def returnsOf (h : List (ℕ × Event)) : List (ℕ × ℤ) :=
  h.filterMap fun e => match e.2 with
    | .returned r => some (e.1, r)
    | _ => none

/-- A step that returns from nothing adds nothing. -/
theorem returnsOf_quiet {os : List Event} (h : ∀ r, Event.returned r ∉ os) :
    returnsOf (os.map fun o => (i, o)) = [] := by
  rw [returnsOf, List.filterMap_eq_nil_iff]
  intro e he
  obtain ⟨o, ho, rfl⟩ := List.mem_map.mp he
  cases o with
  | returned r => exact absurd ho (h r)
  | _ => rfl

/-- A call of one thread, from when it is idle to when it is idle again. -/
theorem call_interleaves {f f' : Fiu W} {call : FiuCall W} {reply : FiuReply} {result : ℤ}
    (hthread : ∀ caller name, call = .fail caller name → caller.thread = i)
    (h : fiuStep P l f call = some (reply, f')) (hresult : reply.result = some result) :
    ∃ (steps : List (ℕ × Choice W)) (os : List (ℕ × Event)),
      threadsRun P l ⟨{ f with enabledFailsLock := RwLock.free }, fun _ => .idle⟩ steps
        = some (os, ⟨{ f' with enabledFailsLock := RwLock.free }, fun _ => .idle⟩) ∧
      returnsOf os = [(i, result)] := by
  obtain ⟨os, hleads, hquiet⟩ := reaches_call (i := i)
    (s := { f with enabledFailsLock := RwLock.free }) rfl hthread h hresult
  have hret : Leads (threadStep P l) i ({ f' with enabledFailsLock := RwLock.free } : Shared W)
      (.ret result) [.returned result] { f' with enabledFailsLock := RwLock.free } .idle :=
    .step (a := .next) rfl (.refl _ _)
  have hall : Leads (threadStep P l) i ({ f with enabledFailsLock := RwLock.free } : Shared W) .idle
      (.internal :: (os ++ [.returned result])) { f' with enabledFailsLock := RwLock.free } .idle :=
    .step (a := .call call) rfl (hleads.trans hret)
  obtain ⟨locals, hlocals⟩ : ∃ locals : ℕ → Thread W, locals = fun _ => .idle := ⟨_, rfl⟩
  obtain ⟨steps, hrun⟩ := hall.run (congrFun hlocals i)
  subst hlocals
  refine ⟨steps, (Event.internal :: (os ++ [.returned result])).map fun o => (i, o), ?_, ?_⟩
  · rw [Function.update_eq_self i (fun _ : ℕ => (Thread.idle : Thread W))] at hrun
    exact hrun
  · have hsplit : returnsOf (((Event.internal :: (os ++ [.returned result])).map fun o => (i, o)))
        = returnsOf (os.map fun o => (i, o)) ++ [(i, result)] := by
      rw [List.map_cons, List.map_append]
      exact List.filterMap_append
    rw [hsplit, returnsOf_quiet hquiet]
    rfl

/-- **Calls one after another are an interleaving.** Each call is paired with the thread that makes
    it, which for `fiu_fail` is the thread of its caller. If all of the calls of a run of `Fiu`
    return, in whichever state it begins, then the threads can do them too, access by access, with
    the same results in the same order, and the same state at the end, where the lock is free and
    nobody is in a call. -/
theorem fiu_run_interleaves (P : Platform) (l : Linker) :
    ∀ (calls : List (ℕ × FiuCall W)) (f : Fiu W) {rs : List FiuReply} {f' : Fiu W} {results : List ℤ},
      (∀ x ∈ calls, ∀ caller name, x.2 = .fail caller name → caller.thread = x.1) →
      Machine.run (fiuStep P l) f (calls.map Prod.snd) = some (rs, f') →
      rs.map FiuReply.result = results.map some →
      ∃ (steps : List (ℕ × Choice W)) (os : List (ℕ × Event)),
        threadsRun P l ⟨{ f with enabledFailsLock := RwLock.free }, fun _ => .idle⟩ steps
          = some (os, ⟨{ f' with enabledFailsLock := RwLock.free }, fun _ => .idle⟩) ∧
        returnsOf os = (calls.map Prod.fst).zip results := by
  intro calls
  induction calls with
  | nil =>
    intro f rs f' results _ hrun hresults
    cases hrun
    exact ⟨[], [], rfl, rfl⟩
  | cons x calls ih =>
    intro f rs f' results hthreads hrun hresults
    obtain ⟨reply, f₁, rs₁, hstep, hrest, rfl⟩ := Machine.run_cons_eq_some hrun
    cases results with
    | nil => cases hresults
    | cons result results =>
      rw [List.map_cons, List.map_cons, List.cons.injEq] at hresults
      obtain ⟨steps, os, hcall, hreturns⟩ := call_interleaves (i := x.1)
        (fun caller name h => hthreads x (List.mem_cons_self ..) caller name h) hstep hresults.1
      obtain ⟨steps', os', hcalls, hreturns'⟩ := ih f₁
        (fun y hy => hthreads y (List.mem_cons_of_mem x hy)) hrest hresults.2
      refine ⟨steps ++ steps', os ++ os', ?_, ?_⟩
      · rw [threadsRun, run, Machine.run_append hcall, ← run, ← threadsRun, hcalls]
        rfl
      · rw [returnsOf, List.filterMap_append, ← returnsOf, ← returnsOf, hreturns, hreturns']
        rfl

/-- Thread 0 enables `"j"`, to fail once with 7; threads 1 and 2 call `fiu_fail` on it. -/
def aloneCalls : List (ℕ × FiuCall Unit) :=
  [(0, .enable keyJ 7 0 fiuOnetime), (1, .fail ⟨1, 0, []⟩ keyJ), (2, .fail ⟨2, 0, []⟩ keyJ),
    (0, .disable keyJ)]

theorem fiu_run_interleaves_four :
    ∃ steps os c, threadsRun Platform.ieee noSymbols (threadsStart () 0 0) steps = some (os, c) ∧
      returnsOf os = [(0, 0), (1, 7), (2, 0), (0, 0)] := by
  have hreplies : (Machine.run (fiuStep Platform.ieee noSymbols) (initialized () 0 0)
      (aloneCalls.map Prod.snd)).map (fun r => r.1.map FiuReply.result)
      = some [some 0, some 7, some 0, some 0] := by
    decide +kernel
  obtain ⟨⟨rs, f'⟩, hrun, hresults⟩ := Option.map_eq_some_iff.mp hreplies
  have hresults' : rs.map FiuReply.result = [0, 7, 0, 0].map some := hresults
  have hthreads : ∀ x ∈ aloneCalls, ∀ caller name, x.2 = .fail caller name → caller.thread = x.1 := by
    simp only [aloneCalls, List.mem_cons, List.not_mem_nil, or_false]
    rintro x (rfl | rfl | rfl | rfl) caller name h <;> cases h <;> rfl
  obtain ⟨steps, os, hall, hreturns⟩ := fiu_run_interleaves Platform.ieee noSymbols aloneCalls
    (initialized () 0 0) hthreads hrun hresults'
  exact ⟨steps, os, _, hall, hreturns⟩

end Libfiu
