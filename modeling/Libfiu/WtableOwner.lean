/-
  Who owns the values of the wildcard table.

  A value that is handed to `wtable_set` is destroyed when it is overwritten, when its key is
  deleted, or with the table.  That is what the `Ledger` of the calls says; the table follows it:

  * `Wtable.Follows` — the table holds the map of the ledger, and the destructor was called on
    what the ledger dropped;
  * with pairwise different values the ledger is balanced, so nothing that the table can reach
    was destroyed (`slotValues_not_destroyed`, `wtableGet_not_destroyed`), and what is left is
    destroyed by `wtable_free`, once (`wtableFree_perm`).

  A value can be reached from a slot in use of the finals, of the wildcards or of the cache.  The
  cache only aliases: what it holds is NULL or a value of the wildcards.

  The destructor of the table is called from two files, hash.c for the finals and wtable.c for the
  wildcards, and never for what the cache holds. The order of the calls is not spoken of, only how
  often there was one for each value.
-/
import Libfiu.WtableMatch

namespace Libfiu

variable {V : Type} {P : Platform}

/-- The values in the slots in use: of the finals, of the wildcards and of the cache. -/
def Wtable.slotValues (t : Wtable V) : List (Option V) :=
  (t.finals.entries.getD []).filterMap Entry.value? ++
    ((t.wildcards.getD []).filterMap fun slot => slot.map Wentry.value) ++
    (t.wcache.hash.entries.getD []).filterMap Entry.value?

/-- The table follows the ledger. -/
structure Wtable.Follows (P : Platform) (t : Wtable V) (L : Ledger V) : Prop where
  holds : t.Holds P L.map
  destroyed : t.allDestroyed.Perm (L.dropped.map some)

/-- The value of a slot of the hash table. -/
theorem mem_value? {entries : List (Entry V)} {v : Option V} :
    v ∈ entries.filterMap Entry.value? ↔ ∃ key, Entry.inUse key v ∈ entries := by
  rw [List.mem_filterMap]
  constructor
  · rintro ⟨s, hs, hv⟩
    cases s <;> cases hv
    exact ⟨_, hs⟩
  · rintro ⟨key, hmem⟩
    exact ⟨_, hmem, rfl⟩

/-- The value of a slot of the wildcards. -/
theorem mem_wentry_value {ws : List (Option (Wentry V))} {v : Option V} :
    v ∈ ws.filterMap (fun slot => slot.map Wentry.value) ↔ ∃ e, some e ∈ ws ∧ e.value = v := by
  rw [List.mem_filterMap]
  constructor
  · rintro ⟨slot, hs, hv⟩
    obtain ⟨e, rfl, rfl⟩ := Option.map_eq_some_iff.mp hv
    exact ⟨e, hs, rfl⟩
  · rintro ⟨e, hmem, rfl⟩
    exact ⟨_, hmem, rfl⟩

/-! ## What can be reached is held

Everything that a call may return stands in some slot; and what stands in a slot is a value that the
map holds, the cached ones included, because the cache agrees with the wildcards that are there.

A removed slot still stands in its array, and holds nothing. -/

/-- A value in a final's slot is held by the map. -/
theorem finals_value_held {M : CString → Option V} {entries : List (Entry V)}
    (hM : Libfiu.Holds entries (finalsOf M)) {key : CString} {v : Option V}
    (hmem : Entry.inUse key v ∈ entries) : ¬ key.isWild ∧ v ≠ none ∧ M key = v := by
  obtain ⟨hne, hv⟩ := (hM key v).mp hmem
  unfold finalsOf at hv
  split at hv
  · exact absurd hv.symm hne
  · rename_i hwild
    exact ⟨hwild, hne, hv⟩

/-- A value that a lookup gives is held by the map. -/
theorem slotReply_get_held {ws : List (Option (Wentry V))} {M : CString → Option V}
    (hM : WsHolds ws M) (hgood : ∀ e, some e ∈ ws → e.Good) {key : CString} {v : V}
    (h : slotReply M ws (.get key) = .ptr (some v)) : ∃ k, M k = some v := by
  rw [slotReply, Reply.ptr.injEq] at h
  split at h
  · unfold finalsOf at h
    split at h
    · cases h
    · exact ⟨key, h⟩
  · obtain ⟨p, -, hp, -⟩ := wildcardFor_some hM hgood h
    exact ⟨p, hp⟩

/-- Every value that the table can reach is NULL or held by the map. -/
theorem slotValues_held {t : Wtable V} {M : CString → Option V} (ht : t.Holds P M) {v : V}
    (hv : some v ∈ t.slotValues) : ∃ k, M k = some v := by
  obtain ⟨⟨⟨entries, hw, hM, -⟩, -, ws, hws, hWs⟩, centries, hc, hagree⟩ := ht
  simp only [Wtable.slotValues, hw.entries_eq, hws.wildcards_eq, hc.entries_eq, Option.getD_some,
    List.mem_append] at hv
  rcases hv with (hfin | hwild) | hcache
  · obtain ⟨key, hmem⟩ := mem_value?.mp hfin
    exact ⟨key, (finals_value_held hM hmem).2.2⟩
  · obtain ⟨e, hmem, he⟩ := mem_wentry_value.mp hwild
    exact ⟨e.key, by rw [hWs.value_eq hmem, he]⟩
  · -- the cache only aliases
    obtain ⟨key, hmem⟩ := mem_value?.mp hcache
    obtain ⟨p, -, hp, -⟩ := wildcardFor_some hWs hws.good
      (hagree ws hws.wildcards_eq key _ hmem).symm
    exact ⟨p, hp⟩

/-- What the ledger holds was not destroyed. -/
theorem not_destroyed_of_held {t : Wtable V} {L : Ledger V} {given : List V}
    (ht : t.Follows P L) (hL : L.Balanced given) {k : CString} {v : V} (hk : L.map k = some v) :
    some v ∉ t.allDestroyed := by
  intro hv
  have hdrop : v ∈ L.dropped := by simpa using ht.destroyed.mem_iff.mp hv
  exact hL.apart v hdrop k hk

/-- No value that can be reached was destroyed. -/
theorem slotValues_not_destroyed {t : Wtable V} {L : Ledger V} {given : List V}
    (ht : t.Follows P L) (hL : L.Balanced given) : ∀ v ∈ t.slotValues, v ∉ t.allDestroyed := by
  intro v hv hd
  cases v with
  | none => simpa using ht.destroyed.mem_iff.mp hd
  | some v =>
    obtain ⟨k, hk⟩ := slotValues_held ht.holds hv
    exact not_destroyed_of_held ht hL hk hd

/-- No lookup gives a value that was destroyed. -/
theorem wtableGet_not_destroyed {t t' : Wtable V} {L : Ledger V} {given : List V}
    (ht : t.Follows P L) (hL : L.Balanced given) {key : CString} (hkey : key.bytes ≠ [])
    {v : Option V} (hget : wtableGet P t key = some (v, t')) : v ∉ t.allDestroyed := by
  intro hd
  cases v with
  | none => simpa using ht.destroyed.mem_iff.mp hd
  | some v =>
    obtain ⟨ws, hw, hM⟩ := ht.holds.uncached.array
    obtain ⟨t₂, hstep, -⟩ := wtableStep_spec ht.holds hw (.get key) hkey
    rw [wtableStep, hget, Option.map_some, Option.some.injEq, Prod.mk.injEq] at hstep
    obtain ⟨k, hk⟩ := slotReply_get_held hM hw.good hstep.1.symm
    exact not_destroyed_of_held ht hL hk hd

/-! ## `wtable_free`

The values that are left are those in the slots of the two parts. They are pairwise different, as
the values that were handed over are, and with what was destroyed before they are all of them. -/

/-- Slots that are told apart by a relation have different values. -/
theorem nodup_filterMap {α β : Type} {l : List α} {f : α → Option β} {R : α → α → Prop}
    (hl : l.Pairwise R)
    (hf : ∀ a ∈ l, ∀ b ∈ l, R a b → ∀ v, f a = some v → f b = some v → False) :
    (l.filterMap f).Nodup := by
  refine List.pairwise_filterMap.mpr (hl.imp_of_mem fun {a b} ha hb hR => ?_)
  rintro v hv v' hv' rfl
  exact hf a ha b hb hR v hv hv'

/-- The values that are left when the table is freed: one slot each. -/
theorem live_nodup {t : Wtable V} {L : Ledger V} {given : List V} (hL : L.Balanced given)
    {entries : List (Entry V)} {ws : List (Option (Wentry V))} (hw : t.finals.WF P entries)
    (hM : Libfiu.Holds entries (finalsOf L.map)) (hws : t.toUncachedWtable.WF ws)
    (hWs : WsHolds ws L.map) :
    (entries.filterMap Entry.value? ++ ws.filterMap fun slot => slot.map Wentry.value).Nodup := by
  have hfin : ∀ key v, Entry.inUse key v ∈ entries →
      ¬ key.isWild ∧ ∃ u, v = some u ∧ L.map key = some u := by
    intro key v hmem
    obtain ⟨hwild, hne, hv⟩ := finals_value_held hM hmem
    obtain ⟨u, rfl⟩ := Option.ne_none_iff_exists'.mp hne
    exact ⟨hwild, u, rfl, hv⟩
  have hwent : ∀ e, some e ∈ ws → ∃ u, e.value = some u ∧ L.map e.key = some u := by
    intro e hmem
    obtain ⟨u, hu⟩ := Option.ne_none_iff_exists'.mp (hws.good e hmem).value_ne
    exact ⟨u, hu, by rw [hWs.value_eq hmem, hu]⟩
  rw [List.nodup_append]
  refine ⟨nodup_filterMap hw.pairwise_keys ?_, nodup_filterMap hws.pairwise_keys ?_, ?_⟩
  · intro a ha b hb hR v hva hvb
    cases a <;> cases hva
    cases b <;> cases hvb
    obtain ⟨-, u, rfl, hu⟩ := hfin _ _ ha
    obtain ⟨-, u', he, hu'⟩ := hfin _ _ hb
    cases he
    exact hR _ rfl (congrArg some (hL.held_once _ _ u hu' hu))
  · intro a ha b hb hR v hva hvb
    obtain ⟨e, rfl, rfl⟩ := Option.map_eq_some_iff.mp hva
    obtain ⟨e', rfl, he'⟩ := Option.map_eq_some_iff.mp hvb
    obtain ⟨u, hv, hu⟩ := hwent e ha
    obtain ⟨u', hv', hu'⟩ := hwent e' hb
    rw [hv, hv'] at he'
    cases he'
    exact hR e e' rfl rfl (hL.held_once _ _ u hu hu')
  · rintro v hv v' hv' rfl
    obtain ⟨key, hmem⟩ := mem_value?.mp hv
    obtain ⟨e, hmem', he⟩ := mem_wentry_value.mp hv'
    obtain ⟨hwild, u, rfl, hu⟩ := hfin key _ hmem
    obtain ⟨u', hu', hk'⟩ := hwent e hmem'
    rw [he] at hu'
    cases hu'
    exact hwild (hL.held_once _ _ u hu hk' ▸ (hws.good e hmem').wild)

/-- The values that are left are those that the map holds. -/
theorem mem_live_iff {t : UncachedWtable V} {M : CString → Option V} {entries : List (Entry V)}
    {ws : List (Option (Wentry V))} (hM : Libfiu.Holds entries (finalsOf M)) (hws : t.WF ws)
    (hWs : WsHolds ws M) {x : Option V} :
    (x ∈ entries.filterMap Entry.value? ++ ws.filterMap fun slot => slot.map Wentry.value) ↔
      ∃ v, x = some v ∧ ∃ k, M k = some v := by
  rw [List.mem_append, mem_value?, mem_wentry_value]
  constructor
  · rintro (⟨key, hmem⟩ | ⟨e, hmem, rfl⟩)
    · obtain ⟨-, hne, hv⟩ := finals_value_held hM hmem
      obtain ⟨v, rfl⟩ := Option.ne_none_iff_exists'.mp hne
      exact ⟨v, rfl, key, hv⟩
    · obtain ⟨v, hv⟩ := Option.ne_none_iff_exists'.mp (hws.good e hmem).value_ne
      exact ⟨v, hv, e.key, by rw [hWs.value_eq hmem, hv]⟩
  · rintro ⟨v, rfl, k, hk⟩
    by_cases hwild : k.isWild
    · obtain ⟨e, hmem, -, hv⟩ := (hWs k (some v)).mpr ⟨hwild, by simp, hk⟩
      exact Or.inr ⟨e, hmem, hv⟩
    · exact Or.inl ⟨k, (hM k (some v)).mpr ⟨by simp, by rw [finalsOf, if_neg hwild, hk]⟩⟩

/-- **`wtable_free`** brings the destructor calls to one for each value that was handed over. -/
theorem wtableFree_perm {t : Wtable V} {L : Ledger V} {given : List V} (ht : t.Follows P L)
    (hL : L.Balanced given) (hgiven : given.Nodup) :
    ∃ final, wtableFree t = some final ∧ final.Perm (given.map some) := by
  obtain ⟨⟨⟨⟨entries, hw, hM, -⟩, -, ws, hws, hWs⟩, -⟩, hd⟩ := ht
  have hlive := live_nodup hL hw hM hws hWs
  refine ⟨t.finals.destroyed ++ entries.filterMap Entry.value? ++ t.destroyed ++
      ws.filterMap fun slot => slot.map Wentry.value,
    by simp [wtableFree, hashFree, hw.entries_eq, hws.slots_eq], ?_⟩
  -- first what was dropped during the run, then what is left
  have hperm : (t.finals.destroyed ++ entries.filterMap Entry.value? ++ t.destroyed ++
        ws.filterMap fun slot => slot.map Wentry.value).Perm
      (L.dropped.map some ++ (entries.filterMap Entry.value? ++
        ws.filterMap fun slot => slot.map Wentry.value)) := by
    refine List.Perm.trans ?_ (hd.append_right _)
    simp only [UncachedWtable.allDestroyed, List.append_assoc]
    refine List.Perm.append_left _ ?_
    simp only [← List.append_assoc]
    exact List.perm_append_comm.append_right _
  refine hperm.trans ((List.perm_ext_iff_of_nodup ?_ ?_).mpr fun x => ?_)
  · refine List.nodup_append.mpr ⟨hL.once.map (Option.some_injective V), hlive, ?_⟩
    rintro x hx y hy rfl
    obtain ⟨v, hv, rfl⟩ := List.mem_map.mp hx
    obtain ⟨v', he, k, hk⟩ := (mem_live_iff hM hws hWs).mp hy
    cases he
    exact hL.apart v hv k hk
  · exact hgiven.map (Option.some_injective V)
  · rw [List.mem_append, mem_live_iff hM hws hWs, List.mem_map, List.mem_map]
    constructor
    · rintro (⟨v, hv, rfl⟩ | ⟨v, rfl, hk⟩)
      · exact ⟨v, (hL.complete v).mpr (Or.inl hv), rfl⟩
      · exact ⟨v, (hL.complete v).mpr (Or.inr hk), rfl⟩
    · rintro ⟨v, hv, rfl⟩
      rcases (hL.complete v).mp hv with hdrop | hk
      · exact Or.inl ⟨v, hdrop, rfl⟩
      · exact Or.inr ⟨v, rfl, hk⟩

/-! ## Runs

The ledger moves along with the calls; that it stays balanced is `Ledger.balanced_next`. -/

/-- A new table follows the empty ledger. -/
theorem wtableCreate_follows (garbage : ℕ) :
    (wtableCreate garbage : Wtable V).Follows P Ledger.empty :=
  ⟨wtableCreate_holds garbage, List.Perm.refl _⟩

/-- One call follows the ledger. -/
theorem wtableStep_ledger {t : Wtable V} {L : Ledger V} (ht : t.Follows P L) (call : Call V)
    (hkey : call.key.bytes ≠ []) :
    ∃ r t', wtableStep P t call = some (r, t') ∧ t'.Follows P (L.next call) := by
  obtain ⟨ws, hw, -⟩ := ht.holds.uncached.array
  obtain ⟨t', hstep, -, ht', hd⟩ := wtableStep_spec ht.holds hw call hkey
  refine ⟨_, t', hstep, ht', hd.trans ?_⟩
  rw [Ledger.next, List.map_append]
  exact ht.destroyed.append_right _

/-- Every run follows its ledger. -/
theorem wtable_run_ledger {t : Wtable V} {L : Ledger V} (ht : t.Follows P L)
    (calls : List (Call V)) (hkeys : ∀ call ∈ calls, call.key.bytes ≠ []) :
    ∃ rs t', Machine.run (wtableStep P) t calls = some (rs, t') ∧
      t'.Follows P (calls.foldl Ledger.next L) := by
  have hstep : ∀ (t : Wtable V) (L : Ledger V) (call : Call V), t.Follows P L →
      call.key.bytes ≠ [] → ∃ r t', wtableStep P t call = some (r, t') ∧ t'.Follows P (L.next call) :=
    fun t L call ht hkey => wtableStep_ledger ht call hkey
  exact Machine.run_keeps hstep calls t L ht hkeys

/-- A run that overwrites a wildcard and deletes a final key. -/
def ownedCalls : List (Call ℕ) :=
  [.set (longWildcard 1) 1, .set keyJ 2, .get keyK, .set (longWildcard 1) 3, .del keyJ]

end Libfiu
