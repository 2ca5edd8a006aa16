/-
  Texts: cutting them at a separator, joining them again, and numbers in decimal.

  1. **Cutting** — `cut sep s` is `s` up to the first `sep`, and what is behind it; `fields sep s`
     are the pieces that come out when what is behind is cut again, until nothing is left.  A
     separator at the very end leaves no further piece, so a text with `sep` between its pieces has
     just these pieces when the last one is not empty (`fields_join`).

  2. **Numbers** — `decimal` writes a number, `digitsValue` reads one from the digits that a text
     begins with.  What is written is read back (`digitsValue_decimal`).  The same for `hex`, of
     which only that is needed: different numbers are written differently (`hex_injective`).

  A text is a list, and a separator is one element. The two directions are not the same: every list
  of pieces without separators can be joined and cut again, but a text that is cut and joined may
  lose a separator at its end.
-/
import Mathlib

namespace Text

/-! ## Joining and cutting

Two ways to write down a list of pieces, and how to get them back. -/

section Joining

variable {α : Type*} (sep : α)

/-- The pieces with the separator between them. -/
def join : List (List α) → List α
  | [] => []
  | [w] => w
  | w :: ws => w ++ sep :: join ws

/-- The pieces, each ended by the separator. -/
def ended (ws : List (List α)) : List α := ws.flatMap fun w => w ++ [sep]

variable {sep}

/-- A piece in front of others. -/
@[simp] theorem ended_cons (w : List α) (ws : List (List α)) :
    ended sep (w :: ws) = w ++ sep :: ended sep ws := by
  simp [ended]

/-- What a joined text is made of. -/
theorem mem_join {c : α} : ∀ {ws : List (List α)}, c ∈ join sep ws → c = sep ∨ ∃ w ∈ ws, c ∈ w
  | [], h => absurd h List.not_mem_nil
  | [w], h => Or.inr ⟨w, List.mem_singleton_self w, h⟩
  | w :: v :: ws, h => by
    have h' : c ∈ w ++ sep :: join sep (v :: ws) := h
    rw [List.mem_append, List.mem_cons] at h'
    rcases h' with h | h | h
    · exact Or.inr ⟨w, List.mem_cons_self .., h⟩
    · exact Or.inl h
    · rcases mem_join h with h | ⟨u, hu, hc⟩
      · exact Or.inl h
      · exact Or.inr ⟨u, List.mem_cons_of_mem w hu, hc⟩

end Joining

section Cutting

variable {α : Type*} [DecidableEq α] (sep : α)

/-- The text up to the first separator, and the text behind it. -/
def cut (s : List α) : List α × List α :=
  (s.takeWhile (· ≠ sep), (s.dropWhile (· ≠ sep)).drop 1)

/-- The pieces of a text.  No piece follows a separator at the very end. -/
def fields : List α → List (List α)
  | [] => []
  | c :: s =>
    if c = sep then [] :: fields s
    else match fields s with
      | [] => [[c]]
      | w :: ws => (c :: w) :: ws

variable {sep}

/-- The first separator is the one behind the first piece. -/
theorem cut_append_cons {w : List α} (hw : sep ∉ w) (s : List α) : cut sep (w ++ sep :: s) = (w, s) := by
  have hne : ∀ c ∈ w, decide (c ≠ sep) = true := by
    intro c hc
    exact decide_eq_true fun h => hw (h ▸ hc)
  unfold cut
  rw [List.takeWhile_append_of_pos hne, List.dropWhile_append_of_pos hne]
  simp

/-- Without a separator all of it is the piece. -/
theorem cut_of_notMem {w : List α} (hw : sep ∉ w) : cut sep w = (w, []) := by
  have hne : ∀ c ∈ w, decide (c ≠ sep) = true := by
    intro c hc
    exact decide_eq_true fun h => hw (h ▸ hc)
  unfold cut
  rw [List.takeWhile_eq_self_iff.mpr hne, List.dropWhile_eq_nil_iff.mpr hne]
  rfl

/-- A letter that is no separator. -/
theorem cut_cons (c : α) (s : List α) :
    cut sep (c :: s) = if c = sep then ([], s) else (c :: (cut sep s).1, (cut sep s).2) := by
  unfold cut
  by_cases hc : c = sep
  · rw [if_pos hc, List.takeWhile_cons_of_neg (by simpa using hc),
      List.dropWhile_cons_of_neg (by simpa using hc)]
    rfl
  · rw [if_neg hc, List.takeWhile_cons_of_pos (by simpa using hc),
      List.dropWhile_cons_of_pos (by simpa using hc)]

/-- What is left is shorter. -/
theorem cut_lt {s : List α} (hs : s ≠ []) : (cut sep s).2.length < s.length := by
  have hdrop : (s.dropWhile (· ≠ sep)).length ≤ s.length := List.length_dropWhile_le _ s
  have hpos : 0 < s.length := List.length_pos_of_ne_nil hs
  show ((s.dropWhile (· ≠ sep)).drop 1).length < s.length
  rw [List.length_drop]
  omega

/-- Of nothing there are no pieces. -/
@[simp] theorem fields_nil : fields sep ([] : List α) = [] := rfl

/-- A piece is a part of the text. -/
theorem mem_of_mem_fields {c : α} {s : List α} : ∀ {w : List α}, w ∈ fields sep s → c ∈ w → c ∈ s := by
  induction s with
  | nil => exact fun h => absurd h List.not_mem_nil
  | cons d s ih =>
    intro w h hc
    rw [fields] at h
    split at h
    · rcases List.mem_cons.mp h with rfl | h
      · exact absurd hc List.not_mem_nil
      · exact List.mem_cons_of_mem d (ih h hc)
    · -- the first piece has one character more
      split at h
      · rw [List.mem_singleton.mp h] at hc
        rw [List.mem_singleton.mp hc]
        exact List.mem_cons_self ..
      · rename_i v vs hv
        rcases List.mem_cons.mp h with rfl | h
        · rcases List.mem_cons.mp hc with rfl | hc
          · exact List.mem_cons_self ..
          · exact List.mem_cons_of_mem d (ih (by rw [hv]; exact List.mem_cons_self ..) hc)
        · exact List.mem_cons_of_mem d (ih (by rw [hv]; exact List.mem_cons_of_mem v h) hc)

/-- `fields` is `cut`, again and again. -/
theorem fields_eq_cut : ∀ {s : List α}, s ≠ [] → fields sep s = (cut sep s).1 :: fields sep (cut sep s).2
  | [], h => absurd rfl h
  | c :: s, _ => by
    rw [fields, cut_cons]
    by_cases hc : c = sep
    · rw [if_pos hc, if_pos hc]
    · rw [if_neg hc, if_neg hc]
      by_cases hs : s = []
      · subst hs
        rfl
      · rw [fields_eq_cut hs]

/-- The first piece, and then the others. -/
theorem fields_append_cons {w : List α} (hw : sep ∉ w) (s : List α) :
    fields sep (w ++ sep :: s) = w :: fields sep s := by
  rw [fields_eq_cut (by simp), cut_append_cons hw]

/-- Without a separator there is one piece. -/
theorem fields_of_notMem {w : List α} (hw : sep ∉ w) (hne : w ≠ []) : fields sep w = [w] := by
  rw [fields_eq_cut hne, cut_of_notMem hw, fields_nil]

/-- Cutting undoes joining, when the last piece is not empty. -/
theorem fields_join : ∀ {ws : List (List α)}, (∀ w ∈ ws, sep ∉ w) → (∀ w ∈ ws.getLast?, w ≠ []) →
    fields sep (join sep ws) = ws
  | [], _, _ => rfl
  | [w], hw, hne => fields_of_notMem (hw w (List.mem_singleton_self w)) (hne w rfl)
  | w :: v :: ws, hw, hne => by
    show fields sep (w ++ sep :: join sep (v :: ws)) = w :: v :: ws
    rw [fields_append_cons (hw w (List.mem_cons_self ..))]
    congr 1
    apply fields_join
    · exact fun u hu => hw u (List.mem_cons_of_mem w hu)
    · intro u hu
      apply hne u
      rwa [List.getLast?_cons_cons]

end Cutting

/-! ## Numbers in decimal

Written as `printf` writes them, and read digit by digit. -/

/-- A text of ASCII characters. -/
def bytes (s : String) : List UInt8 := s.toList.map fun c => UInt8.ofNat c.toNat

/-- A digit. -/
def isDigit (b : UInt8) : Bool := 48 ≤ b ∧ b ≤ 57

/-- The number that the digits at the beginning of a text stand for. -/
def digitsValue (s : List UInt8) : ℕ :=
  (s.takeWhile isDigit).foldl (fun v b => 10 * v + (b.toNat - 48)) 0

/-- A number in decimal. -/
def decimal (n : ℕ) : List UInt8 := (Nat.toDigits 10 n).map fun c => UInt8.ofNat c.toNat

/-- An integer in decimal. -/
def decimalInt (k : ℤ) : List UInt8 := if k < 0 then 45 :: decimal k.natAbs else decimal k.natAbs

/-- A number has a digit. -/
theorem decimal_ne_nil (n : ℕ) : decimal n ≠ [] := by
  intro h
  exact Nat.toDigits_ne_nil (List.map_eq_nil_iff.mp h)

/-- The byte of a digit, and what it stands for. -/
theorem digit_byte {c : Char} (hc : c.isDigit = true) :
    isDigit (UInt8.ofNat c.toNat) = true ∧ (UInt8.ofNat c.toNat).toNat - 48 = c.toNat - '0'.toNat := by
  have hrange : 48 ≤ c.toNat ∧ c.toNat ≤ 57 := by
    simpa [Char.isDigit, UInt32.le_iff_toNat_le] using hc
  have hbyte : (UInt8.ofNat c.toNat).toNat = c.toNat := by
    rw [UInt8.toNat_ofNat']
    omega
  constructor
  · simp only [isDigit, UInt8.le_iff_toNat_le, hbyte]
    simpa using hrange
  · rw [hbyte]
    rfl

/-- A number has nothing but digits. -/
theorem isDigit_of_mem_decimal {n : ℕ} {b : UInt8} (hb : b ∈ decimal n) : isDigit b = true := by
  obtain ⟨c, hc, rfl⟩ := List.mem_map.mp hb
  exact (digit_byte (Nat.isDigit_of_mem_toDigits (by decide) (by decide) hc)).1

/-- **A number that was written is read back.** By induction on the digits, with what was read of
    them in hand. -/
theorem digitsValue_decimal (n : ℕ) : digitsValue (decimal n) = n := by
  unfold digitsValue
  rw [List.takeWhile_eq_self_iff.mpr fun b hb => isDigit_of_mem_decimal hb]
  unfold decimal
  rw [List.foldl_map]
  have hfold : ∀ (cs : List Char) (v : ℕ), (∀ c ∈ cs, c.isDigit = true) →
      cs.foldl (fun v c => 10 * v + ((UInt8.ofNat c.toNat).toNat - 48)) v = Nat.ofDigitChars 10 cs v := by
    intro cs
    induction cs with
    | nil => exact fun v _ => rfl
    | cons c cs ih =>
      intro v hcs
      rw [List.foldl_cons, (digit_byte (hcs c (List.mem_cons_self ..))).2,
        ih _ fun d hd => hcs d (List.mem_cons_of_mem c hd)]
      rfl
  rw [hfold _ 0 fun c hc => Nat.isDigit_of_mem_toDigits (by decide) (by decide) hc]
  exact Nat.ofDigitChars_ten_toDigits

/-! ## Numbers in hexadecimal

As `printf` writes a number with `%x`. -/

/-- A number in hexadecimal. -/
def hex (n : ℕ) : List UInt8 := (Nat.toDigits 16 n).map fun c => UInt8.ofNat c.toNat

/-- What a hexadecimal digit stands for. -/
def hexDigit (b : UInt8) : ℕ := if b.toNat < 97 then b.toNat - 48 else b.toNat - 87

/-- A digit is read back. -/
theorem hexDigit_digitChar : ∀ d < 16, hexDigit (UInt8.ofNat d.digitChar.toNat) = d := by
  decide

/-- The digits of a number. -/
theorem hex_eq (n : ℕ) : hex n = if n < 16 then [UInt8.ofNat n.digitChar.toNat]
    else hex (n / 16) ++ [UInt8.ofNat (n % 16).digitChar.toNat] := by
  unfold hex
  rw [Nat.toDigits_eq_if (by decide)]
  split
  · rfl
  · rw [List.map_append]
    rfl

/-- **A number that was written is read back.** -/
theorem foldl_hex (n : ℕ) : (hex n).foldl (fun v b => 16 * v + hexDigit b) 0 = n := by
  induction n using Nat.strongRecOn with
  | ind n ih =>
    rw [hex_eq]
    split
    · rename_i hn
      show 16 * 0 + hexDigit _ = n
      rw [hexDigit_digitChar n hn]
      omega
    · rw [List.foldl_append, ih (n / 16) (by omega)]
      show 16 * (n / 16) + hexDigit _ = n
      rw [hexDigit_digitChar (n % 16) (Nat.mod_lt n (by decide))]
      omega

theorem hex_injective : Function.Injective hex := by
  intro m n h
  rw [← foldl_hex m, h, foldl_hex n]

/-- A number below `16 ^ k` has at most `k` digits. -/
theorem length_hex_le {n k : ℕ} (hk : 0 < k) (hn : n < 16 ^ k) : (hex n).length ≤ k := by
  unfold hex
  rw [List.length_map]
  exact (Nat.length_toDigits_le_iff (by decide) hk).mpr hn

/-- No digit is NUL. -/
theorem digitChar_ne_nul : ∀ d < 16, UInt8.ofNat d.digitChar.toNat ≠ 0 := by
  decide

/-- There is no NUL in a number. -/
theorem nul_notMem_hex (n : ℕ) : (0 : UInt8) ∉ hex n := by
  induction n using Nat.strongRecOn with
  | ind n ih =>
    rw [hex_eq]
    split
    · rename_i hn
      rw [List.mem_singleton]
      exact (digitChar_ne_nul n hn).symm
    · rw [List.mem_append, List.mem_singleton, not_or]
      exact ⟨ih (n / 16) (by omega), (digitChar_ne_nul _ (Nat.mod_lt n (by decide))).symm⟩

end Text
