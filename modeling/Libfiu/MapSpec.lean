/-
  What the tables are for: a map from keys to values, and the values it owns.

  * `Call` and `Reply` are the three calls of a table (`hash_set`, `hash_del`, `hash_get` and the
    `wtable_` calls of the same names) and what they return.  A value that is stored is not NULL,
    so it is a `V`; a returned pointer is an `Option V`.
  * `mapNext` is the map that the sets (last set wins) and dels of a run produce.
  * `Ledger` adds ownership: the values that were handed over and are dropped again, at the set
    that overwrites them or at the del of their key.  `Ledger.Balanced` says that each value
    handed over is held by exactly one key or dropped exactly once, and `Ledger.balanced_next` that
    every call keeps it so, when no value is handed over twice.

  A run of calls determines its map and its ledger without any table: `mapNext` and `Ledger.next`
  are folds over the calls. The results about tables are statements about these folds, so that
  nothing in them depends on how a table is made.
-/
import Libfiu.Platform

namespace Libfiu

/-- A call of a table. -/
inductive Call (V : Type) where
  | set (key : CString) (value : V)
  | del (key : CString)
  | get (key : CString)
  deriving DecidableEq

/-- What a call returns: a `bool`, or the pointer of a lookup. -/
inductive Reply (V : Type) where
  | bool (b : Bool)
  | ptr (p : Option V)
  deriving DecidableEq

variable {V : Type}

/-- The key of a call. -/
def Call.key : Call V → CString
  | .set key _ => key
  | .del key => key
  | .get key => key

/-- The map after a call: the last set of a key wins, a del removes it. -/
def mapNext (M : CString → Option V) : Call V → CString → Option V
  | .set key value => Function.update M key (some value)
  | .del key => Function.update M key none
  | .get _ => M

/-- The replies of a finite map: a set succeeds, a del tells whether the key was there, a get
    gives its value. -/
def mapReply (M : CString → Option V) : Call V → Reply V → Prop
  | .set _ _, r => r = .bool true
  | .del key, r => r = .bool (M key).isSome
  | .get key, r => r = .ptr (M key)

/-! ## Ownership

A ledger is the map together with what it has dropped. The values are all the ledger speaks about:
it has no idea of slots, arrays or caches, and a table refines it. -/

/-- The values that a run of calls hands over. -/
def givenValues : List (Call V) → List V
  | [] => []
  | .set _ value :: calls => value :: givenValues calls
  | _ :: calls => givenValues calls

/-- What two runs hand over, one after the other. -/
theorem givenValues_append (calls calls' : List (Call V)) :
    givenValues (calls ++ calls') = givenValues calls ++ givenValues calls' := by
  induction calls with
  | nil => rfl
  | cons call calls ih => cases call <;> simp [givenValues, ih]

/-- The value that a call takes out of the map. -/
def displaced (M : CString → Option V) : Call V → List V
  | .set key _ => (M key).toList
  | .del key => (M key).toList
  | .get _ => []

/-- A map with the values it has dropped. -/
structure Ledger (V : Type) where
  map : CString → Option V
  dropped : List V

/-- The ledger before the first call. -/
def Ledger.empty : Ledger V := ⟨fun _ => none, []⟩

/-- The ledger after a call. -/
def Ledger.next (L : Ledger V) (call : Call V) : Ledger V :=
  ⟨mapNext L.map call, L.dropped ++ displaced L.map call⟩

/-- Of the values `given` so far each is either held, by one key, or dropped, once. -/
structure Ledger.Balanced (L : Ledger V) (given : List V) : Prop where
  once : L.dropped.Nodup
  apart : ∀ v ∈ L.dropped, ∀ k, L.map k ≠ some v
  held_once : ∀ k k' v, L.map k = some v → L.map k' = some v → k = k'
  complete : ∀ v, v ∈ given ↔ v ∈ L.dropped ∨ ∃ k, L.map k = some v

/-- Before the first call nothing was given, held or dropped. -/
theorem Ledger.balanced_empty : (Ledger.empty : Ledger V).Balanced [] where
  once := List.nodup_nil
  apart _ hv := absurd hv (List.not_mem_nil)
  held_once _ _ _ h := by cases h
  complete v := by simp [Ledger.empty]

/-- The ledger moves by calls that put `w` under a key, or nothing, and drop what was there. -/
private theorem Ledger.Balanced.update {L : Ledger V} {given : List V} (hL : L.Balanced given)
    (key : CString) (w : Option V) (hw : ∀ v, w = some v → v ∉ given) :
    Ledger.Balanced ⟨Function.update L.map key w, L.dropped ++ (L.map key).toList⟩
      (given ++ w.toList) := by
  have hheld : ∀ k v, L.map k = some v → v ∈ given :=
    fun k v h => (hL.complete v).mpr (Or.inr ⟨k, h⟩)
  have hdrop : ∀ v ∈ L.dropped, v ∈ given := fun v h => (hL.complete v).mpr (Or.inl h)
  constructor
  · -- no value is dropped twice: what is dropped now was held until now
    show (L.dropped ++ (L.map key).toList).Nodup
    rw [List.nodup_append]
    refine ⟨hL.once, ?_, ?_⟩
    · cases L.map key <;> simp
    · rintro v hv u hu rfl
      exact hL.apart v hv key (by simpa using hu)
  · -- what was dropped is held under no key
    intro v hv k
    show Function.update L.map key w k ≠ some v
    by_cases hk : k = key
    · subst hk
      rw [Function.update_self]
      rintro rfl
      rcases List.mem_append.mp hv with h | h
      · exact hw v rfl (hdrop v h)
      · exact hw v rfl (hheld k v (by simpa using h))
    · rw [Function.update_of_ne hk]
      rcases List.mem_append.mp hv with h | h
      · exact hL.apart v h k
      · exact fun he => hk (hL.held_once k key v he (by simpa using h))
  · -- a value is held under one key, as `w` is new
    intro k k' v
    show Function.update L.map key w k = some v → Function.update L.map key w k' = some v → k = k'
    by_cases hk : k = key <;> by_cases hk' : k' = key
    · exact fun _ _ => hk.trans hk'.symm
    · subst hk
      rw [Function.update_self, Function.update_of_ne hk']
      exact fun h h' => absurd (hheld k' v h') (hw v h)
    · subst hk'
      rw [Function.update_self, Function.update_of_ne hk]
      exact fun h h' => absurd (hheld k v h) (hw v h')
    · rw [Function.update_of_ne hk, Function.update_of_ne hk']
      exact hL.held_once k k' v
  · -- what was given is dropped or held
    intro v
    show v ∈ given ++ w.toList ↔ v ∈ L.dropped ++ (L.map key).toList ∨
      ∃ k, Function.update L.map key w k = some v
    rw [List.mem_append, List.mem_append, hL.complete v]
    constructor
    · rintro ((h | ⟨k, hk⟩) | h)
      · exact Or.inl (Or.inl h)
      · by_cases hkey : k = key
        · exact Or.inl (Or.inr (by rw [← hkey, hk]; simp))
        · exact Or.inr ⟨k, by rw [Function.update_of_ne hkey]; exact hk⟩
      · exact Or.inr ⟨key, by rw [Function.update_self]; simpa using h⟩
    · rintro ((h | h) | ⟨k, hk⟩)
      · exact Or.inl (Or.inl h)
      · exact Or.inl (Or.inr ⟨key, by simpa using h⟩)
      · by_cases hkey : k = key
        · subst hkey
          rw [Function.update_self] at hk
          exact Or.inr (by simpa using hk)
        · rw [Function.update_of_ne hkey] at hk
          exact Or.inl (Or.inr ⟨k, hk⟩)

/-- **Every call keeps the ledger balanced**, when it hands over a new value. -/
theorem Ledger.balanced_next {L : Ledger V} {given : List V} (hL : L.Balanced given)
    (call : Call V) (hnew : ∀ v ∈ givenValues [call], v ∉ given) :
    (L.next call).Balanced (given ++ givenValues [call]) := by
  cases call with
  | set key value =>
    exact hL.update key (some value)
      (fun v hv => hnew v (by rw [Option.some.inj hv]; exact List.mem_cons_self ..))
  | del key => exact hL.update key none (fun v hv => by cases hv)
  | get key =>
    show Ledger.Balanced ⟨L.map, L.dropped ++ []⟩ (given ++ [])
    rw [List.append_nil, List.append_nil]
    exact hL

/-- The ledger stays balanced over a run that hands over pairwise different values. -/
theorem Ledger.balanced_foldl : ∀ (calls : List (Call V)) {L : Ledger V} {given : List V},
    L.Balanced given → (given ++ givenValues calls).Nodup →
    (calls.foldl Ledger.next L).Balanced (given ++ givenValues calls)
  | [], L, given, hL, _ => by rwa [givenValues, List.append_nil]
  | call :: calls, L, given, hL, hnodup => by
    have hsplit : givenValues (call :: calls) = givenValues [call] ++ givenValues calls :=
      givenValues_append [call] calls
    rw [hsplit, ← List.append_assoc] at hnodup ⊢
    have hnew : ∀ v ∈ givenValues [call], v ∉ given := by
      rintro v hv hgiven
      have := List.nodup_append.mp (List.nodup_append.mp hnodup).1
      exact this.2.2 v hgiven v hv rfl
    exact Ledger.balanced_foldl calls (Ledger.balanced_next hL call hnew) hnodup

end Libfiu
