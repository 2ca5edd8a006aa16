/-
  The random points of fiu.c.

  `randd` is a linear congruential generator on 32 bits, and a point with a probability fails when
  that is greater than the number drawn, scaled to the range from 0 to 1 with BOTH ends.

  * **The period** (`randd_full_period`): from any seed, 2^32 draws give every number once.  So among
    any 2^32 evaluations of the test in a row, as many fail as there are numbers below the scaled
    probability.

  * **The ends of the range** (`fiu_random_ends_iff`): with probability 0 a point never fails.  With
    probability 1 it fails unless the number drawn is the largest one, which scales to 1 and is not
    less than it; from every seed that comes once in 2^32 draws.  With probability -1, which
    fiu-control.h gives for "always" and which is the default of the remote control, no number is
    less: such a point never fails.

  All three ends go through the same two facts: what `randd` gives is the number drawn, divided by
  the largest one and rounded, so it is from 0 to 1; and the test is a strict one. So no probability
  below or at 0 is ever greater, and 1 is not greater than itself.
-/
import Libfiu.FiuRequest
import Libfiu.RcFaithful
import Libfiu.HashResize
import Libfiu.Lib.Lcg

namespace Libfiu

open Lcg Function Text

variable {W : Type} {P : Platform} {l : Linker}

/-! ## The generator

The step is an affine map modulo 2^32. That it has the full period is a fact about such maps
(`Lib/Lcg`); here it is about the `UInt32` of the source. -/

/-- A number of 32 bits, modulo 2^32. -/
def residue (x : UInt32) : ZMod (2 ^ 32) := (x.toNat : ZMod (2 ^ 32))

/-- Numbers of 32 bits are different modulo 2^32. -/
theorem residue_injective : Injective residue := by
  intro x y h
  have hval : x.toNat % 2 ^ 32 = y.toNat % 2 ^ 32 := (ZMod.natCast_eq_natCast_iff' _ _ _).mp h
  rw [Nat.mod_eq_of_lt x.toNat_lt, Nat.mod_eq_of_lt y.toNat_lt] at hval
  exact UInt32.toNat_inj.mp hval

/-- The step of the generator, modulo 2^32. -/
theorem residue_randdNext (x : UInt32) :
    residue (randdNext x) = next 1103515245 12345 (residue x) := by
  have hnat : (randdNext x).toNat = (1103515245 * x.toNat + 12345) % 2 ^ 32 := by
    simp [randdNext]
  rw [residue, hnat, ZMod.natCast_mod, next, residue]
  push_cast
  rfl

/-- **The full period** of `randd_xn`, from any seed. -/
theorem minimalPeriod_randdNext (seed : UInt32) : minimalPeriod randdNext seed = 2 ^ 32 := by
  have hperiod : minimalPeriod (next 1103515245 12345) (residue seed) = 2 ^ 32 :=
    minimalPeriod_next (by decide) (by decide) _
  rw [← hperiod, minimalPeriod_eq_minimalPeriod_iff]
  intro n
  have hsemi : Semiconj residue randdNext (next 1103515245 12345) := residue_randdNext
  rw [IsPeriodicPt, IsPeriodicPt, IsFixedPt, IsFixedPt, ← (hsemi.iterate_right n) seed]
  exact residue_injective.eq_iff.symm

/-- There are 2^32 of them. -/
theorem card_uint32 : Fintype.card UInt32 = 2 ^ 32 := by
  let e : UInt32 ≃ Fin (2 ^ 32) := ⟨UInt32.toFin, UInt32.ofFin, fun _ => rfl, fun _ => rfl⟩
  rw [Fintype.card_congr e, Fintype.card_fin]

/-! ## The frequency of failures

Over a full period each number is drawn once, so to count the failures is to count the numbers below
the probability. -/

/-- One evaluation of the `switch` of `fiu_fail`, on a point, with the number in `randd_xn`: whether
    it goes to `exit_fail`. -/
def decideStep (P : Platform) (l : Linker) (xn : UInt32) (e : Caller × PfInfo W × W) :
    Option (Bool × UInt32) :=
  let d := e.2.1.decide P l e.1 xn e.2.2
  some (d.1, d.2.2.1)

/-- The test `pf->minfo.probability > randd()`, for the number drawn. -/
def probTest (P : Platform) (p : ℚ) (drawn : UInt32) : Bool := decide (p > randd P drawn)

/-- The `switch` on a point with a probability. -/
theorem PfInfo.decide_prob {pf : PfInfo W} {p : ℚ} (h : pf.method = .prob p) (caller : Caller)
    (xn : UInt32) (world : W) : pf.decide P l caller xn world =
      (probTest P p (randdNext xn), pf, randdNext xn, world) := by
  unfold PfInfo.decide
  rw [h]
  rfl

/-- The results of tests in a row. -/
theorem run_decideStep {p : ℚ} (evals : List (Caller × PfInfo W × W)) (xn : UInt32)
    (hprob : ∀ e ∈ evals, e.2.1.method = .prob p) :
    Machine.run (decideStep P l) xn evals = some ((List.range evals.length).map fun n =>
      probTest P p (randdNext^[n] (randdNext xn)), randdNext^[evals.length] xn) := by
  apply Machine.run_iterate randdNext (probTest P p)
  intro e he x
  have hd := PfInfo.decide_prob (P := P) (l := l) (hprob e he) e.1 x e.2.2
  rw [decideStep, hd]

/-- The numbers of 32 bits are those below 2^32. -/
theorem card_filter_toNat (q : ℕ → Prop) [DecidablePred q] :
    (Finset.univ.filter fun x : UInt32 => q x.toNat).card =
      ((Finset.range (2 ^ 32)).filter q).card := by
  apply Finset.card_bij fun (x : UInt32) _ => x.toNat
  · intro x hx
    rw [Finset.mem_filter] at hx ⊢
    exact ⟨Finset.mem_range.mpr x.toNat_lt, hx.2⟩
  · intro x _ y _ h
    exact UInt32.toNat_inj.mp h
  · intro n hn
    obtain ⟨hlt, hq⟩ := Finset.mem_filter.mp hn
    have hval : (UInt32.ofNat n).toNat = n := UInt32.toNat_ofNat_of_lt' (Finset.mem_range.mp hlt)
    exact ⟨UInt32.ofNat n, Finset.mem_filter.mpr ⟨Finset.mem_univ _, hval.symm ▸ hq⟩, hval⟩

/-- How many of the results of tests in a row are failures. -/
theorem count_failures (hash : CString → ℕ) (p : ℚ) (xn : UInt32) (N : ℕ) (hN : N = 2 ^ 32) :
    ((List.range N).map fun n => probTest (Platform.exact hash) p (randdNext^[n] xn)).count true =
      ((Finset.range N).filter fun x : ℕ => (x : ℚ) < p * (2 ^ 32 - 1)).card := by
  have hscaled : ∀ x : UInt32,
      probTest (Platform.exact hash) p x = true ↔ (x.toNat : ℚ) < p * (2 ^ 32 - 1) := by
    intro x
    rw [probTest, decide_eq_true_eq]
    show (x.toNat : ℚ) / 4294967295 < p ↔ _
    rw [div_lt_iff₀ (by norm_num)]
    norm_num
  have hcount : ((List.range N).map fun n =>
      probTest (Platform.exact hash) p (randdNext^[n] xn)).count true =
        Nat.count (fun n => probTest (Platform.exact hash) p (randdNext^[n] xn) = true) N := by
    rw [List.count, List.countP_map]
    apply List.countP_congr
    intro n _
    simp
  have hfreq := card_filter_iterate ((minimalPeriod_randdNext xn).trans card_uint32.symm)
    fun x => probTest (Platform.exact hash) p x = true
  rw [card_uint32, ← hN] at hfreq
  rw [hcount, Nat.count_eq_card_filter_range, hfreq]
  simp only [hscaled]
  rw [card_filter_toNat fun n => (n : ℚ) < p * (2 ^ 32 - 1), hN]

/-- **The generator has the full period, and failures have their frequency.** From any seed, 2^32
    draws give pairwise different numbers, and every number. And in 2^32 evaluations in a row of
    points with probability `p` (of any points, in any threads, with any `world`), as many fail as
    there are numbers below `p * (2^32 - 1)`. For the last the platform is one that does not round,
    so `p` is the rational that it is. -/
theorem randd_full_period (hash : CString → ℕ) (l : Linker) (seed : UInt32) :
    (∀ i < 2 ^ 32, ∀ j < 2 ^ 32, randdNext^[i + 1] seed = randdNext^[j + 1] seed → i = j) ∧
    (∀ x, ∃ i < 2 ^ 32, randdNext^[i + 1] seed = x) ∧
    ∀ (p : ℚ) (evals : List (Caller × PfInfo W × W)), evals.length = 2 ^ 32 →
      (∀ e ∈ evals, e.2.1.method = .prob p) →
      ∃ results xn, Machine.run (decideStep (Platform.exact hash) l) seed evals =
          some (results, xn) ∧
        results.count true =
          ((Finset.range (2 ^ 32)).filter fun x : ℕ => (x : ℚ) < p * (2 ^ 32 - 1)).card := by
  have hperiod := minimalPeriod_randdNext (randdNext seed)
  refine ⟨fun i hi j hj h => ?_, fun x => ?_, fun p evals hlen hprob => ?_⟩
  · rw [iterate_succ_apply, iterate_succ_apply] at h
    rw [← hperiod] at hi hj
    exact iterate_injOn_Iio_minimalPeriod hi hj h
  · have hall := exists_iterate_eq (hperiod.trans card_uint32.symm) x
    rwa [card_uint32] at hall
  · refine ⟨_, _, run_decideStep evals seed hprob, ?_⟩
    rw [count_failures hash p (randdNext seed) evals.length hlen, hlen]

/-- Half of the probability fails in half of the tests. -/
theorem randd_full_period_half : ∃ results xn,
    Machine.run (decideStep (Platform.exact fun _ => 0) noSymbols) 0 (List.replicate (2 ^ 32)
      (mainThread, (pfCreate keyJ 1 0 0 (.prob (1 / 2)) : PfInfo Unit), ())) = some (results, xn) ∧
    results.count true =
      ((Finset.range (2 ^ 32)).filter fun x : ℕ => (x : ℚ) < 1 / 2 * (2 ^ 32 - 1)).card :=
  (randd_full_period (fun _ => 0) noSymbols 0).2.2 (1 / 2) _ List.length_replicate
    fun e he => by rw [List.eq_of_mem_replicate he]; rfl

/-! ## The ends of the range

A number is scaled by division by `UINT_MAX`, so the largest one gives exactly 1, which is not below
1. -/

/-- A scaled number is not negative. -/
theorem randd_nonneg (P : Platform) (xn : UInt32) : 0 ≤ randd P xn := by
  have hnum : 0 ≤ P.double.round (xn.toNat : ℚ) := P.double.round_nonneg (by positivity)
  have hden : 0 < P.double.round 4294967295 := P.double.round_pos (by norm_num)
  exact P.double.round_nonneg (div_nonneg hnum hden.le)

/-- **The upper end**: only the largest number is scaled to 1 or more. -/
theorem randd_lt_one_iff (xn : UInt32) : randd Platform.ieee xn < 1 ↔ xn ≠ 4294967295 := by
  have hden : Platform.ieee.double.round 4294967295 = 4294967295 := by decide +kernel
  constructor
  · rintro h rfl
    have hone : randd Platform.ieee 4294967295 = 1 := by decide +kernel
    rw [hone] at h
    exact lt_irrefl 1 h
  · intro hne
    rw [randd, hden]
    show Rounding.nearest 53 (Rounding.nearest 53 xn.toNat / 4294967295) < 1
    have hlt : (xn.toNat : ℚ) ≤ 4294967294 := by
      have hval : xn.toNat ≠ 4294967295 := fun h => hne (UInt32.toNat_inj.mp h)
      have hmax := xn.toNat_lt
      have hle : xn.toNat ≤ 4294967294 := by omega
      exact_mod_cast hle
    -- each of the two roundings adds at most 2^(-53) of the number; the gap is 2^(-32)
    rcases Nat.eq_zero_or_pos xn.toNat with h0 | hpos
    · rw [h0]
      decide +kernel
    · have hx : (0 : ℚ) < xn.toNat := by exact_mod_cast hpos
      have hnum := Rounding.nearest_le 53 hx
      have hpow : (2 : ℚ) ^ (-(53 : ℕ) : ℤ) = 1 / 9007199254740992 := by norm_num
      have hround : 0 < Rounding.nearest 53 (xn.toNat : ℚ) :=
        (Rounding.binary 53 (by decide)).round_pos hx
      have hquot := Rounding.nearest_le 53 (div_pos hround (by norm_num : (0 : ℚ) < 4294967295))
      rw [hpow] at hnum hquot
      have hbound : Rounding.nearest 53 (xn.toNat : ℚ) / 4294967295 ≤
          4294967294 * (1 + 1 / 9007199254740992) / 4294967295 := by
        apply div_le_div_of_nonneg_right _ (by norm_num)
        nlinarith
      calc Rounding.nearest 53 (Rounding.nearest 53 (xn.toNat : ℚ) / 4294967295)
          ≤ Rounding.nearest 53 (xn.toNat : ℚ) / 4294967295 * (1 + 1 / 9007199254740992) := hquot
        _ ≤ 4294967294 * (1 + 1 / 9007199254740992) / 4294967295 * (1 + 1 / 9007199254740992) :=
            mul_le_mul_of_nonneg_right hbound (by norm_num)
        _ < 1 := by norm_num

/-- **The test at the ends**: at 0 and at -1 it never succeeds, and at 1 it does unless the largest
    number was drawn. -/
theorem probTest_ends {p : ℚ} (hp : p = 0 ∨ p = 1 ∨ p = -1) (drawn : UInt32) :
    probTest Platform.ieee p drawn = true ↔ p = 1 ∧ drawn ≠ 4294967295 := by
  have hnonneg := randd_nonneg Platform.ieee drawn
  rw [probTest, decide_eq_true_eq]
  rcases hp with rfl | rfl | rfl
  · exact iff_of_false (not_lt.mpr hnonneg) fun h => absurd h.1 (by norm_num)
  · exact (randd_lt_one_iff drawn).trans (and_iff_right rfl).symm
  · exact iff_of_false (not_lt.mpr (by linarith)) fun h => absurd h.1 (by norm_num)

/-! ## The point of a probability

Between the enabling and the draw other calls may come; none of them changes the probability of a
point that stays enabled.

So what `fiu_fail` finds at the end is the point as it was enabled, and the number it draws is the
next one of the generator. -/

/-- `fiu_fail` on a point with a probability and without `FIU_ONETIME`: the point stays as it is. -/
theorem PfInfo.fail_prob {pf : PfInfo W} {p : ℚ} (hprob : pf.method = .prob p)
    (honce : pf.onetime = false) (caller : Caller) (xn : UInt32) (world : W) :
    (pf.fail P l caller xn world).pf = pf ∧
      (pf.fail P l caller xn world).reply =
        ⟨some (if probTest P p (randdNext xn) then pf.failnum else 0), []⟩ := by
  have hlocked : pf.locked caller = pf := by
    rw [PfInfo.locked, honce]
    rfl
  have hfail : pf.fail P l caller xn world =
      PfInfo.finish false (probTest P p (randdNext xn), pf, randdNext xn, world) := by
    rw [PfInfo.fail, honce, if_neg (by simp), if_neg (by simp), hlocked, PfInfo.decide_prob hprob]
  rw [hfail]
  simp [PfInfo.finish, honce]

/-- The library is valid, and the point at `i` is `pf`. -/
def Holding (P : Platform) (i : ℕ) (pf : PfInfo W) (s : Fiu W) : Prop :=
  (∃ L, s.Valid P L) ∧ s.pfs[i]? = some pf

/-- **No call changes a point with a probability and without `FIU_ONETIME`.** -/
theorem Holding.step {i : ℕ} {pf : PfInfo W} {p : ℚ} (hprob : pf.method = .prob p)
    (honce : pf.onetime = false) {s s' : Fiu W} {call : FiuCall W} {r : FiuReply}
    (hs : Holding P i pf s) (hstep : fiuStep P l s call = some (r, s')) : Holding P i pf s' := by
  obtain ⟨⟨L, hs⟩, hi⟩ := hs
  refine ⟨fiuStep_some_valid hs hstep, ?_⟩
  -- a new point comes behind all others
  have hinsert : ∀ {pf' : PfInfo W} {r : ℤ} {t : Fiu W}, insertPf P s pf' = some (r, t) →
      t.pfs[i]? = some pf := by
    intro pf' r t h
    obtain ⟨tab, -, h⟩ := Option.bind_eq_some_iff.mp h
    obtain ⟨⟨ok, tab'⟩, -, h⟩ := Option.bind_eq_some_iff.mp h
    cases h
    show (s.pfs ++ [pf'])[i]? = some pf
    rw [List.getElem?_append_left (List.getElem?_eq_some_iff.mp hi).1, hi]
  by_cases henables : call.enables = true
  · obtain ⟨pf', -, -, heq⟩ := fiuStep_enabling (P := P) (l := l) henables
    rw [heq] at hstep
    split at hstep
    · cases hstep
      exact hi
    · obtain ⟨⟨r', t⟩, hins, he⟩ := Option.map_eq_some_iff.mp hstep
      cases he
      exact hinsert hins
  · cases call with
    | fail caller name =>
      obtain ⟨⟨r', t⟩, hfail, he⟩ := Option.map_eq_some_iff.mp hstep
      cases he
      by_cases hrec : caller.recCount = 0
      · obtain ⟨tab, tab', -, -, -, ⟨-, hf⟩ | ⟨id, q, -, hq, hf⟩⟩ := fiuFail_eq (l := l) hs hrec name
        · rw [hf] at hfail
          cases hfail
          exact hi
        · rw [hf] at hfail
          cases hfail
          show (s.pfs.set id _)[i]? = some pf
          by_cases hid : id = i
          · -- the point itself was asked for
            subst hid
            rw [hi] at hq
            cases hq
            rw [(PfInfo.fail_prob hprob honce caller s.randdXn s.world).1,
              List.getElem?_set_self (List.getElem?_eq_some_iff.mp hi).1]
          · rw [List.getElem?_set_ne hid, hi]
      · rw [fiuFail_nested hrec] at hfail
        cases hfail
        exact hi
    | disable name =>
      obtain ⟨⟨r', t⟩, hdisable, he⟩ := Option.map_eq_some_iff.mp hstep
      cases he
      obtain ⟨tab, -, h⟩ := Option.bind_eq_some_iff.mp hdisable
      obtain ⟨⟨ok, tab'⟩, -, h⟩ := Option.bind_eq_some_iff.mp h
      cases h
      exact hi
    | _ => exact absurd rfl henables

/-- And no request does. -/
theorem Holding.request {strtod : List UInt8 → ℚ} {i : ℕ} {pf : PfInfo W} {p : ℚ}
    (hprob : pf.method = .prob p) (honce : pf.onetime = false) {s s' : Fiu W} {q : Request W}
    {r : RequestReply} (hstep : requestStep P l strtod s q = some (r, s')) (hs : Holding P i pf s) :
    Holding P i pf s' := by
  rcases requestStep_cases hstep with ⟨c, r', hcall⟩ | ⟨xn, rfl⟩
  · exact hs.step hprob honce hcall
  · exact ⟨requestStep_valid hstep hs.1, hs.2⟩

/-! ## The default of the remote control

A command without a probability hands -1 over, which the documentation knows as a special case and
the code does not. -/

/-- A parameter that is not `probability` keeps the probability. -/
theorem RcParams.step_probability {strtod : List UInt8 → ℚ} {q q' : RcParams} {w : List UInt8}
    (hw : rcToken w ≠ some .probability) (h : q.step strtod w = .ok q') :
    q'.probability = q.probability := by
  unfold RcParams.step at h
  rw [show findToken rcTokens (suboptName w) = rcToken w from rfl] at h
  cases ht : rcToken w with
  | none =>
    rw [ht] at h
    cases h
  | some t =>
    rw [ht] at h hw
    cases hv : suboptValue w <;> rw [hv] at h <;> cases t <;> cases h <;>
      first | rfl | exact absurd rfl hw

/-- No parameter of a command changes it, if none gives it. -/
theorem foldlM_step_probability {strtod : List UInt8 → ℚ} : ∀ (ws : List (List UInt8))
    {q q' : RcParams}, (∀ w ∈ ws, rcToken w ≠ some .probability) →
    ws.foldlM (RcParams.step strtod) q = .ok q' → q'.probability = q.probability := by
  intro ws
  induction ws with
  | nil =>
    intro q q' _ h
    cases h
    rfl
  | cons w ws ih =>
    intro q q' hws h
    rw [List.foldlM_cons] at h
    cases hstep : q.step strtod w with
    | error o =>
      rw [hstep] at h
      cases h
    | ok q₁ =>
      rw [hstep] at h
      rw [ih (fun v hv => hws v (List.mem_cons_of_mem _ hv)) h,
        RcParams.step_probability (hws w (List.mem_cons_self ..)) hstep]

/-- The probability that is handed over is the one that was parsed, as a `float`. -/
theorem RcParams.execute_probability {q : RcParams} {command : List UInt8} {name : CString}
    {failnum : ℤ} {failinfo : Addr} {flags : UInt32} {p : ℚ}
    (h : (q.execute command).toCall (W := W) P = some (.enableRandom name failnum failinfo flags p)) :
    p = P.single.round q.probability := by
  unfold RcParams.execute at h
  split at h
  · obtain ⟨n, -, h⟩ := Option.map_eq_some_iff.mp h
    cases h
  split at h
  · obtain ⟨n, -, h⟩ := Option.map_eq_some_iff.mp h
    cases h
  split at h
  · obtain ⟨n, -, h⟩ := Option.map_eq_some_iff.mp h
    cases h
    rfl
  split at h
  · obtain ⟨n, -, h⟩ := Option.bind_eq_some_iff.mp h
    obtain ⟨f, -, h⟩ := Option.bind_eq_some_iff.mp h
    cases h
  · cases h

/-- **The default**: a command that enables a random point, and does not give its probability, hands -1
    over. -/
theorem fiuRcString_default {strtod : List UInt8 → ℚ} {cmd name : CString} {failnum : ℤ}
    {failinfo : Addr} {flags : UInt32} {p : ℚ}
    (hcall : (fiuRcString strtod cmd).toCall (W := W) Platform.ieee =
      some (.enableRandom name failnum failinfo flags p))
    (hws : ∀ w ∈ subopts (cmd.bytes.take (maxLine - 1)), rcToken w ≠ some .probability) : p = -1 := by
  have hminus : Platform.ieee.single.round (-1) = -1 := by decide +kernel
  rw [fiuRcString_eq] at hcall
  have hsubopts : subopts (cmd.bytes.take (maxLine - 1)) =
      fields comma ((paramWord (cmd.bytes.take (maxLine - 1))).getD []) := rfl
  cases hparam : paramWord (cmd.bytes.take (maxLine - 1)) with
  | none =>
    rw [hparam] at hcall
    cases hword : commandWord (cmd.bytes.take (maxLine - 1)) <;> rw [hword] at hcall <;> cases hcall
  | some params =>
    rw [hparam] at hcall hsubopts
    rw [hsubopts, Option.getD_some] at hws
    cases hword : commandWord (cmd.bytes.take (maxLine - 1)) with
    | none =>
      rw [hword] at hcall
      cases hcall
    | some command =>
      rw [hword] at hcall
      dsimp only at hcall
      cases hfold : (fields comma params).foldlM (RcParams.step strtod) {} with
      | error o =>
        rw [hfold] at hcall
        rcases foldlM_step_spec strtod (fields comma params) {} with
          ⟨-, herr⟩ | ⟨-, -, herr⟩ | ⟨-, -, q, herr, -⟩ <;> rw [hfold] at herr <;> cases herr <;>
          cases hcall
      | ok q =>
        rw [hfold] at hcall
        have hq : q.probability = -1 := foldlM_step_probability _ hws hfold
        rw [RcParams.execute_probability hcall, hq, hminus]

/-! ## Exactly when the ends of the range are as documented

The condition is the number in the generator before the draw, when the probability is 1; for -1 it
is met nowhere, and for 0 everywhere. -/

/-- What fiu-control.h gives for a probability at an end of the range: 0 never fails, 1 and -1
    always do. -/
def documentedResult (p : ℚ) (failnum : ℤ) : ℤ := if p = 0 then 0 else failnum

/-- **Exactly when the ends of the range are as documented.** After any requests (`hbefore`), a
    point is enabled with a probability 0, 1 or -1, by a program or by a command of the remote
    control (`hcall`, `hrequest`), with a failnum to tell a failure by and without `FIU_ONETIME`;
    and any requests follow (`hafter`).

    The first conjunct is where -1 comes from: the remote control gives it when the command has no
    probability. By the second, a call of `fiu_fail` that finds the point returns what is documented
    if and only if the probability is 0, or it is 1, the call is not a nested one and the number
    that is drawn is not the largest one. So for -1 it never does. -/
theorem fiu_random_ends_iff (l : Linker) (strtod : List UInt8 → ℚ) (world : W) (garbage : ℕ)
    (seed : UInt32) {before after : List (Request W)} {request : Request W} {name : CString}
    {failnum : ℤ} {failinfo : Addr} {flags : UInt32} {p : ℚ} {rs rs' : List RequestReply}
    {r : RequestReply} {s s₁ s₂ : Fiu W}
    (hbefore : Machine.run (requestStep Platform.ieee l strtod) (initialized world garbage seed)
      before = some (rs, s))
    (hcall : request.toCall Platform.ieee strtod =
      some (.enableRandom name failnum failinfo flags p))
    (hrequest : requestStep Platform.ieee l strtod s request = some (r, s₁))
    (hafter : Machine.run (requestStep Platform.ieee l strtod) s₁ after = some (rs', s₂))
    (hp : p = 0 ∨ p = 1 ∨ p = -1) (hfailnum : failnum ≠ 0) (honce : flags &&& fiuOnetime = 0) :
    (∀ cmd, request = .command cmd →
      (∀ w ∈ subopts (cmd.bytes.take (maxLine - 1)), rcToken w ≠ some .probability) → p = -1) ∧
    ∀ (caller : Caller) (asked : CString), s₂.lookup Platform.ieee asked = some (some s.pfs.length) →
      ∃ v s₃, fiuFail Platform.ieee l s₂ caller asked = some (⟨some v, []⟩, s₃) ∧
        (v = documentedResult p failnum ↔
          p = 0 ∨ (caller.recCount = 0 ∧ p = 1 ∧ randdNext s₂.randdXn ≠ 4294967295)) := by
  constructor
  · rintro cmd rfl hws
    exact fiuRcString_default hcall hws
  · intro caller asked hfound
    obtain ⟨L, hs⟩ := request_run_valid hbefore
    let pf : PfInfo W := pfCreate name failnum failinfo flags (.prob p)
    have honce' : pf.onetime = false := by
      show decide (flags &&& fiuOnetime ≠ 0) = false
      rw [honce]
      rfl
    -- the request creates the point
    have hcreated : Holding Platform.ieee s.pfs.length pf s₁ := by
      refine ⟨requestStep_valid hrequest ⟨L, hs⟩, ?_⟩
      have hmap := requestStep_of_call (l := l) hcall s
      rw [hrequest] at hmap
      obtain ⟨⟨r', t⟩, hstep, rfl⟩ := Option.map_eq_some_iff.mp hmap.symm
      obtain ⟨⟨r₁, t'⟩, hins, he⟩ := Option.map_eq_some_iff.mp hstep
      cases he
      obtain ⟨tab, -, h⟩ := Option.bind_eq_some_iff.mp hins
      obtain ⟨⟨ok, tab'⟩, -, h⟩ := Option.bind_eq_some_iff.mp h
      cases h
      exact List.getElem?_concat_length
    -- no later request changes it
    obtain ⟨⟨L₂, hs₂⟩, hpf⟩ := request_run_keeps (fun h hJ => hJ.request rfl honce' h) hafter hcreated
    have hdoc : ∀ b : Bool, (if b then failnum else 0) = documentedResult p failnum ↔
        (p = 0 ∧ b = false) ∨ (p ≠ 0 ∧ b = true) := by
      intro b
      unfold documentedResult
      by_cases h0 : p = 0 <;> cases b <;> simp [h0, hfailnum, hfailnum.symm]
    by_cases hrec : caller.recCount = 0
    · obtain ⟨tab, tab', -, -, -, ⟨hnone, -⟩ | ⟨id, q, hid, hq, hf⟩⟩ := fiuFail_eq (l := l) hs₂ hrec asked
      · rw [hfound] at hnone
        cases hnone
      · rw [hfound] at hid
        cases hid
        rw [hpf] at hq
        cases hq
        rw [(PfInfo.fail_prob (l := l) rfl honce' caller s₂.randdXn s₂.world).2] at hf
        refine ⟨_, _, hf, ?_⟩
        have hends := probTest_ends hp (randdNext s₂.randdXn)
        show (if probTest Platform.ieee p (randdNext s₂.randdXn) then failnum else 0) = _ ↔ _
        rw [hdoc, hends, ← Bool.not_eq_true, hends, and_iff_right hrec]
        rcases hp with rfl | rfl | rfl <;> simp
    · refine ⟨0, s₂, fiuFail_nested hrec asked, ?_⟩
      have h0 := hdoc false
      rw [if_neg Bool.false_ne_true] at h0
      rw [h0]
      simp [hrec]

/-- With probability 1 the point does not fail when the largest number is drawn, as with this seed at
    once; and it does not fail after a command that gives no probability. -/
theorem fiu_random_never_fails :
    (Machine.run (requestStep Platform.ieee noSymbols fun _ => 0) (initialized () 0 230538014)
      [.call (.enableRandom keyJ 1 0 0 1), .call (.fail mainThread keyJ)]).map Prod.fst =
        some [.call (.int 0), .call (.fail ⟨some 0, []⟩)] ∧
    (Machine.run (requestStep Platform.ieee noSymbols fun _ => 0) (initialized () 0 0)
      [.command (CString.ofArray (bytes "enable_random name=j")),
        .call (.fail mainThread (CString.ofArray (bytes "j")))]).map Prod.fst =
        some [.command 0 "Error in enable_random", .call (.fail ⟨some 0, []⟩)] := by
  constructor <;> decide +kernel

/-- With another seed it fails. -/
theorem fiu_random_ends_one : ∃ s v s', requestStep Platform.ieee noSymbols (fun _ => 0)
      (initialized () 0 0) (.call (.enableRandom keyJ 1 0 0 1)) = some (.call (.int 0), s) ∧
    fiuFail Platform.ieee noSymbols s mainThread keyJ = some (⟨some v, []⟩, s') ∧ v = 1 := by
  have hcalc : (requestStep Platform.ieee noSymbols (fun _ => 0) (initialized () 0 0)
      (.call (.enableRandom keyJ 1 0 0 1))).map (fun r =>
        (r.1, r.2.lookup Platform.ieee keyJ, r.2.randdXn)) =
      some (.call (.int 0), some (some 0), 0) := by decide +kernel
  obtain ⟨⟨r, s⟩, hstep, he⟩ := Option.map_eq_some_iff.mp hcalc
  obtain ⟨rfl, hlook, hxn⟩ : r = .call (.int 0) ∧ s.lookup Platform.ieee keyJ = some (some 0) ∧
      s.randdXn = 0 := by
    simp only [Prod.mk.injEq] at he
    exact he
  obtain ⟨v, s', hfail, hiff⟩ := (fiu_random_ends_iff noSymbols (fun _ => 0) () 0 0
    (Machine.run_nil _ _) rfl hstep (Machine.run_nil _ _) (Or.inr (Or.inl rfl)) (by decide)
    (by decide)).2 mainThread keyJ hlook
  refine ⟨s, v, s', hstep, hfail, hiff.mpr (Or.inr ⟨rfl, rfl, ?_⟩)⟩
  rw [hxn]
  decide

end Libfiu
