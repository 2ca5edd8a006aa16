/-
  What the library runs on: C strings, and the parts of the platform that its results must not
  depend on.

  * `CString` — a NUL-terminated string, without its terminator; `charAt` reads it the way C does,
    terminator included, and says when an index is outside of it;
  * `Platform` — the function in place of `murmurhash2` and the rounding of `float` and `double`.

  Undefined behaviour (a NULL pointer or an index outside of its array that is dereferenced) is
  `none` throughout the development: a function that can meet it returns an `Option`.
-/
import Libfiu.Lib.Rounding

namespace Libfiu

/-- A NUL-terminated string: its bytes up to the terminator. -/
structure CString where
  /-- The bytes before the terminator. -/
  bytes : List UInt8
  /-- The terminator is the only NUL. -/
  noNul : (0 : UInt8) ∉ bytes
  deriving DecidableEq

namespace CString

/-- `strlen`. -/
def strlen (s : CString) : ℕ := s.bytes.length

/-- `s[i]`: the terminator can be read too, and nothing behind it. -/
def charAt (s : CString) (i : ℕ) : Option UInt8 := (s.bytes ++ [0])[i]?

theorem ext_bytes {s t : CString} (h : s.bytes = t.bytes) : s = t := by
  cases s
  cases t
  cases h
  rfl

end CString

/-- `'*'`. -/
def star : UInt8 := 42

/-- The parts of the platform that are left open: the hash function in place of `murmurhash2` and
    the rounding of single and of double precision arithmetic. -/
structure Platform where
  /-- The hash of a key. -/
  murmurhash2 : CString → ℕ
  /-- Rounding to `float`. -/
  single : Rounding
  /-- Rounding to `double`. -/
  double : Rounding

end Libfiu
