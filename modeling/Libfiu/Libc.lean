/-
  The functions of libc that take a command apart.

  A `char` array that holds a string is the list of its characters up to the terminator.  A function
  that writes terminators into the string that it is given, as `strtok_r` and `getsubopt` do, returns
  the pieces instead.

  * `strtokR` — a token, and what `saveptr` is left at;
  * `getsubopt` — which token the next suboption is, its value (NULL without a `=`), and the rest;
  * `atoi`, `strtoul` — blanks, a sign, digits; too large a number is the largest one of its type.

  These are definitions from the documentation of the functions, on the inputs that the code gives
  them. What the documentation leaves undefined is `none`; a NULL that `atoi` is given is in
  `RcString`, where it can come up.
-/
import Libfiu.Platform
import Libfiu.Lib.Text

namespace Libfiu

open Text

/-! ## Strings in arrays

A `char` array holds a string up to its first zero. -/

/-- The string at the beginning of an array. -/
def CString.ofArray (array : List UInt8) : CString where
  bytes := array.takeWhile (· ≠ 0)
  noNul h := by simpa using List.mem_takeWhile_imp h

theorem CString.ofArray_bytes {array : List UInt8} (h : (0 : UInt8) ∉ array) :
    (CString.ofArray array).bytes = array := by
  show array.takeWhile (· ≠ 0) = array
  rw [List.takeWhile_eq_self_iff]
  intro c hc
  exact decide_eq_true fun h0 => h (h0 ▸ hc)

/-- `strncpy` into an array of zeros. -/
def strncpy (src : List UInt8) (n : ℕ) : List UInt8 := src.take n

/-! ## Taking strings apart

`strtok_r` and `getsubopt` write zeros into the string that they are given; what a caller sees of
that is the token and the rest, and so they are functions from a string to both. -/

/-- `strtok_r`: the next token, and what is behind the character that ends it. -/
def strtokR (s delim : List UInt8) : Option (List UInt8 × List UInt8) :=
  let s := s.dropWhile (· ∈ delim)
  if s = [] then none
  else some (s.takeWhile (· ∉ delim), (s.dropWhile (· ∉ delim)).drop 1)

/-- `','`. -/
def comma : UInt8 := 44

/-- `'='`. -/
def equals : UInt8 := 61

/-- The name of a suboption. -/
def suboptName (subopt : List UInt8) : List UInt8 := (cut equals subopt).1

/-- The value of a suboption, NULL when it has no `=`. -/
def suboptValue (subopt : List UInt8) : Option (List UInt8) :=
  if equals ∈ subopt then some (cut equals subopt).2 else none

/-- The token of a name. -/
def findToken {T : Type} (tokens : List (T × List UInt8)) (name : List UInt8) : Option T :=
  (tokens.find? fun t => t.2 = name).map Prod.fst

/-- `getsubopt` on a string that is not empty: the token, none for -1; the value; and what
    `optionp` is left at. -/
def getsubopt {T : Type} (tokens : List (T × List UInt8)) (options : List UInt8) :
    Option T × Option (List UInt8) × List UInt8 :=
  let subopt := (cut comma options).1
  let token := findToken tokens (suboptName subopt)
  (token, if token.isSome then suboptValue subopt else some subopt, (cut comma options).2)

/-! ## Numbers

Numbers saturate where they do not fit into a `long`, and `atoi` then takes the lower 32 bits. -/

/-- `isspace` in the C locale. -/
def isspace (b : UInt8) : Bool := b = 32 ∨ (9 ≤ b ∧ b ≤ 13)

/-- What `strtol` and `strtoul` read: whether there is a minus sign, and the digits behind it. -/
def scanNumber (s : List UInt8) : Bool × ℕ :=
  match s.dropWhile isspace with
  | 45 :: s => (true, digitsValue s)
  | 43 :: s => (false, digitsValue s)
  | s => (false, digitsValue s)

/-- `strtol` with base 10. -/
def strtol (s : List UInt8) : ℤ :=
  let (minus, n) := scanNumber s
  let k : ℤ := if minus then -n else n
  max (-2 ^ 63) (min k (2 ^ 63 - 1))

/-- `atoi`: `(int) strtol(s, NULL, 10)`. -/
def atoi (s : List UInt8) : ℤ := (strtol s).bmod (2 ^ 32)

/-- `strtoul` with base 10. -/
def strtoul (s : List UInt8) : ℕ :=
  let (minus, n) := scanNumber s
  if 2 ^ 64 ≤ n then 2 ^ 64 - 1
  else if minus then (2 ^ 64 - n) % 2 ^ 64
  else n

/-! ## Of what was written

What `fiu-ctrl` or a caller writes down is read back: a word as a word, a decimal number as that
number. -/

/-- A token that another character follows. -/
theorem strtokR_append_cons {delim w : List UInt8} {d : UInt8} (hw : ∀ b ∈ w, b ∉ delim) (hne : w ≠ [])
    (hd : d ∈ delim) (s : List UInt8) : strtokR (w ++ d :: s) delim = some (w, s) := by
  obtain ⟨b, w', rfl⟩ := List.exists_cons_of_ne_nil hne
  have hb : b ∉ delim := hw b (List.mem_cons_self ..)
  have hkeep : (b :: w' ++ d :: s).dropWhile (· ∈ delim) = b :: w' ++ d :: s := by
    rw [List.cons_append, List.dropWhile_cons_of_neg (by simpa using hb)]
  have htok : ∀ c ∈ b :: w', decide (c ∉ delim) = true := fun c hc => decide_eq_true (hw c hc)
  unfold strtokR
  rw [hkeep, if_neg (by simp), List.takeWhile_append_of_pos htok, List.dropWhile_append_of_pos htok,
    List.takeWhile_cons_of_neg (by simpa using hd), List.dropWhile_cons_of_neg (by simpa using hd)]
  simp

/-- The last token. -/
theorem strtokR_word {delim w : List UInt8} (hw : ∀ b ∈ w, b ∉ delim) (hne : w ≠ []) :
    strtokR w delim = some (w, []) := by
  obtain ⟨b, w', rfl⟩ := List.exists_cons_of_ne_nil hne
  have hkeep : (b :: w').dropWhile (· ∈ delim) = b :: w' :=
    List.dropWhile_cons_of_neg (by simpa using hw b (List.mem_cons_self ..))
  have htok : ∀ c ∈ b :: w', decide (c ∉ delim) = true := fun c hc => decide_eq_true (hw c hc)
  unfold strtokR
  rw [hkeep, if_neg (by simp), List.takeWhile_eq_self_iff.mpr htok, List.dropWhile_eq_nil_iff.mpr htok]
  rfl

/-- The name of a suboption is what stands before its first `=`. -/
theorem suboptName_append {key : List UInt8} (hkey : equals ∉ key) (value : List UInt8) :
    suboptName (key ++ equals :: value) = key := by
  rw [suboptName, cut_append_cons hkey]

/-- The value of a suboption is what is behind its first `=`. -/
theorem suboptValue_append {key : List UInt8} (hkey : equals ∉ key) (value : List UInt8) :
    suboptValue (key ++ equals :: value) = some value := by
  rw [suboptValue, cut_append_cons hkey, if_pos (by simp)]

/-- A digit is neither a blank nor a sign. -/
theorem not_sign_of_isDigit {b : UInt8} (hb : isDigit b = true) : isspace b = false ∧ b ≠ 45 ∧ b ≠ 43 := by
  have hrange : 48 ≤ b.toNat ∧ b.toNat ≤ 57 := by
    simpa [isDigit, UInt8.le_iff_toNat_le] using hb
  refine ⟨?_, ?_, ?_⟩
  · simp only [isspace, UInt8.le_iff_toNat_le, ← UInt8.toNat_inj, decide_eq_false_iff_not]
    show ¬ (b.toNat = 32 ∨ 9 ≤ b.toNat ∧ b.toNat ≤ 13)
    omega
  · rintro rfl
    exact absurd hrange (by decide)
  · rintro rfl
    exact absurd hrange (by decide)

/-- The digits of a number are all read. -/
theorem scanNumber_decimal (n : ℕ) : scanNumber (decimal n) = (false, n) := by
  obtain ⟨b, s, hs⟩ := List.exists_cons_of_ne_nil (decimal_ne_nil n)
  obtain ⟨hspace, hminus, hplus⟩ := not_sign_of_isDigit
    (isDigit_of_mem_decimal (n := n) (b := b) (by rw [hs]; exact List.mem_cons_self ..))
  have hkeep : (decimal n).dropWhile isspace = decimal n := by
    rw [hs]
    exact List.dropWhile_cons_of_neg (by rw [hspace]; exact Bool.false_ne_true)
  unfold scanNumber
  rw [hkeep]
  split
  · rename_i h
    rw [hs] at h
    exact absurd (List.cons.inj h).1 hminus
  · rename_i h
    rw [hs] at h
    exact absurd (List.cons.inj h).1 hplus
  · rw [digitsValue_decimal]

/-- A number with a minus sign is read with its sign. -/
theorem scanNumber_minus (n : ℕ) : scanNumber (45 :: decimal n) = (true, n) := by
  have hkeep : ((45 : UInt8) :: decimal n).dropWhile isspace = 45 :: decimal n :=
    List.dropWhile_cons_of_neg (by decide)
  unfold scanNumber
  rw [hkeep]
  show (true, digitsValue (decimal n)) = (true, n)
  rw [digitsValue_decimal]

/-- **`atoi` reads back an `int`.** -/
theorem atoi_decimalInt {k : ℤ} (hk : -2 ^ 31 ≤ k ∧ k < 2 ^ 31) : atoi (decimalInt k) = k := by
  have hstrtol : strtol (decimalInt k) = k := by
    unfold strtol decimalInt
    by_cases hneg : k < 0
    · rw [if_pos hneg, scanNumber_minus]
      show max (-2 ^ 63) (min (-(k.natAbs : ℤ)) (2 ^ 63 - 1)) = k
      omega
    · rw [if_neg hneg, scanNumber_decimal]
      show max (-2 ^ 63) (min (k.natAbs : ℤ) (2 ^ 63 - 1)) = k
      omega
  rw [atoi, hstrtol, Int.bmod_eq_of_le (by omega) (by omega)]

/-- A number has no character that separates. -/
theorem decimalInt_clean {k : ℤ} {b : UInt8} (hb : b ∈ decimalInt k) : b ∉ [0, 9, 10, 32, 44] := by
  have hdigit : ∀ {n : ℕ}, b ∈ decimal n → b ∉ [0, 9, 10, 32, 44] := by
    intro n h
    have hd := isDigit_of_mem_decimal h
    intro hmem
    simp only [List.mem_cons, List.not_mem_nil, or_false] at hmem
    rcases hmem with rfl | rfl | rfl | rfl | rfl <;> exact absurd hd (by decide)
  unfold decimalInt at hb
  split at hb
  · rcases List.mem_cons.mp hb with rfl | hb
    · decide
    · exact hdigit hb
  · exact hdigit hb

/-- **`strtoul` reads back an `unsigned long`.** -/
theorem strtoul_decimal {n : ℕ} (hn : n < 2 ^ 64) : strtoul (decimal n) = n := by
  unfold strtoul
  rw [scanNumber_decimal]
  show (if 2 ^ 64 ≤ n then 2 ^ 64 - 1 else n) = n
  rw [if_neg (by omega)]

end Libfiu
