/-
  The lines of the remote control: `read_line` and `rc_do_command` of libfiu/fiu-rc.c.

  1. **Reading** — `readLineStep` is the body of the loop of `read_line`, on what one `read` gives;
     `readLine` is the loop on a stream whose reads succeed.  The loop stops at a newline, at a NUL,
     at the end of the stream, or when the array is full.

  2. **Commands** — `rcDoCommand` reads one line, hands it to `fiu_rc_string` (here `rcString`, any
     function of that kind) and writes the reply.  `rcSession` calls it until it returns 0.

  3. **Framing** — a stream of lines is taken apart into just these lines when each of them has 1
     to 511 characters, and else it is not (`framed_iff`): an empty line is taken for the end of
     the stream, and of a longer line the array holds the first 512 characters only, the rest being
     taken for the next line.

  An empty line cannot be told from the end of the stream: 0 is what `read_line` returns for both,
  and `rc_do_command` passes it on. And a line that is too long is not refused but cut, so that its
  rest is taken for a command of its own. The theorem says that there is nothing else: every other
  stream of lines is framed, as long as the commands in it are defined.
-/
import Libfiu.FiuLocks
import Libfiu.RcFaithful

namespace Libfiu

open Text

/-! ## `read_line`

One `read` for each byte, into an array of 512; where the loop ends decides what is returned and
what is in the array. -/

/-- `'\n'`. -/
def newline : UInt8 := 10

/-- What a `read` of one byte gives. -/
inductive ReadResult where
  | error
  | eof
  | byte (c : UInt8)

/-- The loop goes on, with the bytes that are stored; or `read_line` returns a length, and leaves an
    array. -/
inductive LineStep where
  | more (buf : List UInt8)
  | done (len : ℤ) (array : List UInt8)
  deriving DecidableEq

/-- What follows the loop. -/
def readLineEnd (buf : List UInt8) : LineStep :=
  if buf.getLast? = some newline then .done (buf.length - 1) (buf.dropLast ++ [0])
  else .done buf.length buf

/-- One turn of the loop. -/
def readLineStep (buf : List UInt8) : ReadResult → LineStep
  | .error => .done (-1) buf
  | .eof => readLineEnd buf
  | .byte c =>
    if c ≠ newline ∧ c ≠ 0 ∧ (buf ++ [c]).length < maxLine then .more (buf ++ [c])
    else readLineEnd (buf ++ [c])

/-- `read_line` on a stream: what it returns, the array, and what is left of the stream. -/
def readLine : List UInt8 → List UInt8 → ℤ × List UInt8 × List UInt8
  | buf, [] =>
    match readLineStep buf .eof with
    | .more buf => (0, buf, [])
    | .done len array => (len, array, [])
  | buf, c :: fd =>
    match readLineStep buf (.byte c) with
    | .more buf => readLine buf fd
    | .done len array => (len, array, fd)

/-! ## `rc_do_command`

It takes 0 bytes for the end of the file, which an empty line looks like. -/

/-- A function like `fiu_rc_string`: what it returns, the text in `*error`, and what it does. -/
abbrev RcString (σ : Type) : Type := CString → σ → Option (ℤ × String × σ)

/-- The reply to a command, `"%d\n"`. -/
def rcReply (r : ℤ) : List UInt8 := decimalInt r ++ [newline]

/-- What a call of `rc_do_command` does: the call of `fiu_rc_string` that it makes, what it writes to
    `fdw` and to `stderr`, and what it returns. -/
structure RcDone where
  ret : ℤ
  call : Option CString
  reply : List UInt8
  stderr : String

variable {σ : Type} (rcString : RcString σ)

/-- `rc_do_command`, `write` succeeding: also what is left of the stream. -/
def rcDoCommand (fdr : List UInt8) (s : σ) : Option (RcDone × List UInt8 × σ) :=
  match readLine [] fdr with
  | (len, buf, fdr) =>
    if len ≤ 0 then some (⟨len, none, [], ""⟩, fdr, s)
    else do
      let (r, error, s) ← rcString (CString.ofArray buf) s
      some (⟨len, some (CString.ofArray buf), rcReply r,
        if r < 0 then "libfiu: rc parsing error: " ++ error ++ "\n" else ""⟩, fdr, s)

/-! ## What `read_line` reads

From a stream of lines: a line that fits, one that does not, and an empty one.

A NUL ends the loop like a newline does, but a line as it is meant has none. -/

/-- One byte that is no end of the line. -/
theorem readLineStep_byte (buf : List UInt8) (c : UInt8) : readLineStep buf (.byte c) =
    if c ≠ newline ∧ c ≠ 0 ∧ buf.length + 1 < maxLine then .more (buf ++ [c])
    else readLineEnd (buf ++ [c]) := by
  rw [readLineStep, List.length_append, List.length_singleton]

/-- A byte more, and then the rest. -/
theorem readLine_more {buf fd : List UInt8} {c : UInt8} (hline : c ≠ newline) (hnul : c ≠ 0)
    (hlen : buf.length + 1 < maxLine) : readLine buf (c :: fd) = readLine (buf ++ [c]) fd := by
  rw [readLine, readLineStep_byte, if_pos ⟨hline, hnul, hlen⟩]

/-- **A line that fits.** By induction on what is left of the line, with the rest of it in the
    buffer. -/
theorem readLine_fits (fd : List UInt8) : ∀ (w buf : List UInt8), newline ∉ w → (0 : UInt8) ∉ w →
    buf.length + w.length < maxLine →
    readLine buf (w ++ newline :: fd) = (((buf.length + w.length : ℕ) : ℤ), buf ++ w ++ [0], fd) := by
  intro w
  induction w with
  | nil =>
    intro buf _ _ _
    have hlast : (buf ++ [newline]).getLast? = some newline := List.getLast?_concat
    rw [List.nil_append, readLine, readLineStep_byte, if_neg fun h => h.1 rfl, readLineEnd,
      if_pos hlast, List.length_append, List.dropLast_concat]
    simp
  | cons c w ih =>
    intro buf hline hnul hlen
    rw [List.length_cons] at hlen
    rw [List.mem_cons, not_or] at hline hnul
    rw [List.cons_append, readLine_more (Ne.symm hline.1) (Ne.symm hnul.1) (by omega),
      ih _ hline.2 hnul.2 (by rw [List.length_append]; simp only [List.length_singleton]; omega)]
    have hlen' : (buf ++ [c]).length + w.length = buf.length + (c :: w).length := by
      rw [List.length_append, List.length_cons, List.length_cons, List.length_nil]
      omega
    rw [hlen', List.append_assoc buf]
    rfl

/-- **A line that does not fit**: the array is full. By induction on what is left of the array. -/
theorem readLine_full (fd : List UInt8) : ∀ (w buf : List UInt8), w ≠ [] → newline ∉ w →
    (0 : UInt8) ∉ w → buf.length + w.length = maxLine →
    readLine buf (w ++ fd) = ((maxLine : ℤ), buf ++ w, fd) := by
  intro w
  induction w with
  | nil => exact fun buf h => absurd rfl h
  | cons c w ih =>
    intro buf _ hline hnul hlen
    rw [List.length_cons] at hlen
    rw [List.mem_cons, not_or] at hline hnul
    by_cases hw : w = []
    · -- the last byte
      subst hw
      have hfull : (buf ++ [c]).length = maxLine := by
        rw [List.length_append]
        simpa using hlen
      have hlast : (buf ++ [c]).getLast? ≠ some newline := by
        rw [List.getLast?_concat]
        exact fun h => hline.1 (Option.some.inj h).symm
      have hstop : ¬ (c ≠ newline ∧ c ≠ 0 ∧ buf.length + 1 < maxLine) := by
        rintro ⟨-, -, h⟩
        rw [List.length_nil] at hlen
        omega
      rw [List.cons_append, List.nil_append, readLine, readLineStep_byte, if_neg hstop, readLineEnd,
        if_neg hlast, hfull]
    · have hpos : 0 < w.length := List.length_pos_of_ne_nil hw
      rw [List.cons_append, readLine_more (Ne.symm hline.1) (Ne.symm hnul.1) (by omega),
        ih _ hw hline.2 hnul.2 (by rw [List.length_append]; simp only [List.length_singleton]; omega)]
      simp

/-- Behind the loop `read_line` returns. -/
theorem readLineEnd_done (buf : List UInt8) : ∃ len array, readLineEnd buf = .done len array := by
  unfold readLineEnd
  split
  · exact ⟨_, _, rfl⟩
  · exact ⟨_, _, rfl⟩

/-- As long as there is something to read, the stream becomes shorter. -/
theorem readLine_lt : ∀ (fd buf : List UInt8), buf.length + fd.length ≠ 0 →
    (readLine buf fd).2.2.length < buf.length + fd.length := by
  intro fd
  induction fd with
  | nil =>
    intro buf hpos
    have hend : readLineStep buf .eof = readLineEnd buf := rfl
    obtain ⟨len, array, hdone⟩ := readLineEnd_done buf
    rw [readLine, hend, hdone]
    show ([] : List UInt8).length < _
    rw [List.length_nil] at hpos ⊢
    omega
  | cons c fd ih =>
    intro buf _
    rw [readLine, List.length_cons]
    rw [readLineStep_byte]
    by_cases hmore : c ≠ newline ∧ c ≠ 0 ∧ buf.length + 1 < maxLine
    · have hih := ih (buf ++ [c]) (by rw [List.length_append, List.length_singleton]; omega)
      rw [List.length_append, List.length_singleton] at hih
      rw [if_pos hmore]
      show (readLine (buf ++ [c]) fd).2.2.length < _
      omega
    · obtain ⟨len, array, hdone⟩ := readLineEnd_done (buf ++ [c])
      rw [if_neg hmore, hdone]
      show fd.length < _
      omega

/-! ## The session

The control thread calls `rc_do_command` until it gets 0 or an error. Every call that goes on reads
something, so a session comes to an end. -/

/-- What a session did: the calls of `fiu_rc_string`, the replies, what was left of the stream when
    the call that returned 0 began, and the state. -/
structure RcSession (σ : Type) where
  calls : List CString
  replies : List (List UInt8)
  unread : List UInt8
  state : σ

/-- A command in front of a session. -/
def RcSession.cons (r : RcDone) (t : RcSession σ) : RcSession σ :=
  { t with calls := r.call.toList ++ t.calls, replies := r.reply :: t.replies }

variable {rcString}

/-- A call that goes on has read something. -/
theorem rcDoCommand_lt {fdr fdr' : List UInt8} {s s' : σ} {r : RcDone}
    (h : rcDoCommand rcString fdr s = some (r, fdr', s')) (hpos : 0 < r.ret) :
    fdr'.length < fdr.length := by
  by_cases hnil : fdr = []
  · -- at the end of the stream the length is 0
    subst hnil
    cases h
    exact absurd hpos (by decide)
  · have hlen : fdr.length ≠ 0 := fun h0 => hnil (List.length_eq_zero_iff.mp h0)
    have hlt := readLine_lt fdr [] (by rw [List.length_nil]; omega)
    rw [List.length_nil, Nat.zero_add] at hlt
    unfold rcDoCommand at h
    split at h
    rename_i len buf rest hread
    rw [hread] at hlt
    split at h
    · cases h
      exact hlt
    · simp only [Option.bind_eq_bind, Option.bind_eq_some_iff, Option.some.injEq, Prod.mk.injEq] at h
      obtain ⟨-, -, -, rfl, -⟩ := h
      exact hlt

variable (rcString)

/-- `rc_do_command`, again and again, until it does not return a length. -/
def rcSession (fdr : List UInt8) (s : σ) : Option (RcSession σ) :=
  match _h : rcDoCommand rcString fdr s with
  | none => none
  | some (r, fdr', s') =>
    if _hpos : 0 < r.ret then (rcSession fdr' s').map (RcSession.cons r)
    else some ⟨[], [], fdr, s'⟩
termination_by fdr.length
decreasing_by exact rcDoCommand_lt _h _hpos

/-- The commands, one after another: what they return. -/
def rcRun : List CString → σ → Option (List ℤ × σ)
  | [], s => some ([], s)
  | cmd :: cmds, s => do
    let (r, _, s) ← rcString cmd s
    let (rs, s) ← rcRun cmds s
    some (r :: rs, s)

/-! ## Framing

The specification: each line is one command, with its own text and its own reply, and the session
ends at the end of the stream. -/

/-- The text of a line. -/
structure Line extends CString where
  noNewline : newline ∉ bytes

/-- The stream of the lines. -/
def lineStream (ls : List Line) : List UInt8 := ended newline (ls.map fun l => l.bytes)

/-- Every line is handed to `fiu_rc_string` once, in order, with exactly its text; the replies are
    those to the lines; and 0 is returned at the end of the stream. -/
def Framed (ls : List Line) (s : σ) : Prop :=
  ∃ rs s', rcRun rcString (ls.map Line.toCString) s = some (rs, s') ∧
    rcSession rcString (lineStream ls) s = some ⟨ls.map Line.toCString, rs.map rcReply, [], s'⟩

/-- The line has 1 to 511 characters. -/
def Line.Fits (l : Line) : Prop := 1 ≤ l.strlen ∧ l.strlen ≤ 511

variable {rcString}

/-- The array that `read_line` leaves for a line. -/
theorem Line.ofArray_ended (l : Line) : CString.ofArray (l.bytes ++ [0]) = l.toCString := by
  apply CString.ext_bytes
  show (l.bytes ++ [0]).takeWhile (· ≠ 0) = l.bytes
  have hne : ∀ b ∈ l.bytes, decide (b ≠ 0) = true := fun b hb => decide_eq_true fun h => l.noNul (h ▸ hb)
  rw [List.takeWhile_append_of_pos hne]
  exact List.append_nil _

/-! ### The three outcomes of `rc_do_command` on lines -/

/-- A line that fits is handed over. -/
theorem rcDoCommand_fits (rcString : RcString σ) {l : Line} (hl : l.Fits) (fd : List UInt8) (s : σ) :
    rcDoCommand rcString (l.bytes ++ newline :: fd) s =
      (rcString l.toCString s).map fun r =>
        (⟨l.strlen, some l.toCString, rcReply r.1,
          if r.1 < 0 then "libfiu: rc parsing error: " ++ r.2.1 ++ "\n" else ""⟩, fd, r.2.2) := by
  have hread : readLine [] (l.bytes ++ newline :: fd) = ((l.strlen : ℤ), l.bytes ++ [0], fd) := by
    have hlt : ([] : List UInt8).length + l.bytes.length < maxLine := by
      rw [List.length_nil, Nat.zero_add]
      exact Nat.lt_succ_of_le hl.2
    rw [readLine_fits fd l.bytes [] l.noNewline l.noNul hlt, List.length_nil, Nat.zero_add,
      List.nil_append]
    rfl
  have hpos : ¬ (l.strlen : ℤ) ≤ 0 := by
    have := hl.1
    omega
  unfold rcDoCommand
  rw [hread]
  show (if (l.strlen : ℤ) ≤ 0 then _ else _) = _
  rw [if_neg hpos, l.ofArray_ended]
  cases rcString l.toCString s <;> rfl

/-- An empty line returns 0. -/
theorem rcDoCommand_empty (fd : List UInt8) (s : σ) :
    rcDoCommand rcString (newline :: fd) s = some (⟨0, none, [], ""⟩, fd, s) := by
  have hread := readLine_fits fd [] [] List.not_mem_nil List.not_mem_nil (by decide)
  unfold rcDoCommand
  rw [← List.nil_append (newline :: fd), hread]
  rfl

/-- Of a longer line the first 512 characters are handed over, and the rest stays. -/
theorem rcDoCommand_long (rcString : RcString σ) {l : Line} (hl : 512 ≤ l.strlen) (fd : List UInt8)
    (s : σ) :
    rcDoCommand rcString (l.bytes ++ fd) s =
      (rcString (CString.ofArray (l.bytes.take 512)) s).map fun r =>
        (⟨512, some (CString.ofArray (l.bytes.take 512)), rcReply r.1,
          if r.1 < 0 then "libfiu: rc parsing error: " ++ r.2.1 ++ "\n" else ""⟩,
          l.bytes.drop 512 ++ fd, r.2.2) := by
  have hlen : (l.bytes.take 512).length = 512 := by
    rw [List.length_take]
    exact Nat.min_eq_left hl
  have hread := readLine_full (l.bytes.drop 512 ++ fd) (l.bytes.take 512) []
    (List.ne_nil_of_length_pos (by omega)) (fun h => l.noNewline (List.mem_of_mem_take h))
    (fun h => l.noNul (List.mem_of_mem_take h)) (by rw [hlen]; rfl)
  rw [← List.append_assoc, List.take_append_drop] at hread
  unfold rcDoCommand
  rw [hread, List.nil_append]
  show (if (512 : ℤ) ≤ 0 then _ else _) = _
  rw [if_neg (by decide)]
  cases rcString (CString.ofArray (l.bytes.take 512)) s <;> rfl

/-! ### Sessions -/

/-- A command that is answered, and then the rest of the session. -/
theorem rcSession_pos {fdr fdr' : List UInt8} {s s' : σ} {r : RcDone}
    (h : rcDoCommand rcString fdr s = some (r, fdr', s')) (hpos : 0 < r.ret) :
    rcSession rcString fdr s = (rcSession rcString fdr' s').map (RcSession.cons r) := by
  rw [rcSession]
  split
  · rename_i hnone
    rw [h] at hnone
    cases hnone
  · rename_i hsome
    rw [h] at hsome
    cases hsome
    rw [dif_pos hpos]

/-- The call that ends the session. -/
theorem rcSession_stop {fdr fdr' : List UInt8} {s s' : σ} {r : RcDone}
    (h : rcDoCommand rcString fdr s = some (r, fdr', s')) (hpos : ¬ 0 < r.ret) :
    rcSession rcString fdr s = some ⟨[], [], fdr, s'⟩ := by
  rw [rcSession]
  split
  · rename_i hnone
    rw [h] at hnone
    cases hnone
  · rename_i hsome
    rw [h] at hsome
    cases hsome
    rw [dif_neg hpos]

/-- The real end of the stream. -/
theorem rcSession_eof (s : σ) : rcSession rcString [] s = some ⟨[], [], [], s⟩ := by
  have hdone : rcDoCommand rcString [] s = some (⟨0, none, [], ""⟩, [], s) := rfl
  exact rcSession_stop hdone (by decide)

/-- An empty line ends the session, whatever follows it. -/
theorem rcSession_empty (fd : List UInt8) (s : σ) :
    rcSession rcString (newline :: fd) s = some ⟨[], [], newline :: fd, s⟩ :=
  rcSession_stop (rcDoCommand_empty fd s) (by decide)

/-- A line in front of others. -/
theorem lineStream_cons (l : Line) (ls : List Line) :
    lineStream (l :: ls) = l.bytes ++ newline :: lineStream ls := by
  rw [lineStream, List.map_cons, ended_cons]
  rfl

/-- A command in front of others. -/
theorem rcRun_cons (cmd : CString) (cmds : List CString) (s : σ) :
    rcRun rcString (cmd :: cmds) s = (rcString cmd s).bind fun r =>
      (rcRun rcString cmds r.2.2).map fun t => (r.1 :: t.1, t.2) := by
  rw [rcRun]
  cases rcString cmd s with
  | none => rfl
  | some r =>
    simp only [Option.bind_eq_bind, Option.bind_some]
    cases rcRun rcString cmds r.2.2 <;> rfl

/-- Commands, and then others. -/
theorem rcRun_append : ∀ (cmds cmds' : List CString) (s : σ), rcRun rcString (cmds ++ cmds') s =
    (rcRun rcString cmds s).bind fun r =>
      (rcRun rcString cmds' r.2).map fun t => (r.1 ++ t.1, t.2) := by
  intro cmds
  induction cmds with
  | nil =>
    intro cmds' s
    rw [List.nil_append]
    show _ = (rcRun rcString cmds' s).map fun t => ([] ++ t.1, t.2)
    cases rcRun rcString cmds' s <;> rfl
  | cons cmd cmds ih =>
    intro cmds' s
    rw [List.cons_append, rcRun_cons, rcRun_cons]
    cases rcString cmd s with
    | none => rfl
    | some r =>
      rw [Option.bind_some, Option.bind_some, ih]
      cases rcRun rcString cmds r.2.2 with
      | none => rfl
      | some t =>
        show Option.map _ (Option.map _ (rcRun rcString cmds' t.2)) = Option.map _ (rcRun rcString cmds' t.2)
        cases rcRun rcString cmds' t.2 <;> rfl

/-- Every command returns something. -/
theorem rcRun_length : ∀ {cmds : List CString} {s s' : σ} {rs : List ℤ},
    rcRun rcString cmds s = some (rs, s') → rs.length = cmds.length := by
  intro cmds
  induction cmds with
  | nil =>
    intro s s' rs h
    cases h
    rfl
  | cons cmd cmds ih =>
    intro s s' rs h
    rw [rcRun_cons] at h
    obtain ⟨r, -, h⟩ := Option.bind_eq_some_iff.mp h
    obtain ⟨t, ht, he⟩ := Option.map_eq_some_iff.mp h
    cases he
    rw [List.length_cons, List.length_cons, ih ht]

/-- A line that is empty or too long is not framed. -/
theorem not_framed_cons {l : Line} (hl : ¬ l.Fits) (ls : List Line) (s : σ) :
    ¬ Framed rcString (l :: ls) s := by
  rintro ⟨rs, s', -, hsession⟩
  rw [lineStream_cons] at hsession
  have hcases : l.strlen = 0 ∨ 512 ≤ l.strlen := by
    unfold Line.Fits at hl
    omega
  rcases hcases with hzero | hlong
  · -- it is taken for the end of the stream
    have hnil : l.bytes = [] := List.length_eq_zero_iff.mp hzero
    rw [hnil, List.nil_append, rcSession_empty] at hsession
    have hcalls := congrArg RcSession.calls (Option.some.inj hsession)
    cases hcalls
  · rcases hr : rcString (CString.ofArray (l.bytes.take 512)) s with - | ⟨r, error, s₁⟩
    · -- the call does not return
      rw [rcSession] at hsession
      have hdone := rcDoCommand_long rcString hlong (newline :: lineStream ls) s
      rw [hr] at hdone
      split at hsession
      · cases hsession
      · rename_i hsome
        rw [hdone] at hsome
        cases hsome
    · have hdone := rcDoCommand_long rcString hlong (newline :: lineStream ls) s
      rw [hr] at hdone
      have hpos : (0 : ℤ) < 512 := by decide
      rw [rcSession_pos hdone hpos] at hsession
      obtain ⟨t, ht, hcons⟩ := Option.map_eq_some_iff.mp hsession
      have hcalls : CString.ofArray (l.bytes.take 512) :: t.calls = l.toCString :: ls.map Line.toCString :=
        congrArg RcSession.calls hcons
      have htext : (l.bytes.take 512).takeWhile (· ≠ 0) = l.bytes :=
        congrArg CString.bytes (List.cons.inj hcalls).1
      -- the text is all of the line, so exactly the newline is left
      have hlen : l.bytes.length ≤ 512 := by
        rw [← htext]
        refine (List.takeWhile_sublist _).length_le.trans ?_
        rw [List.length_take]
        exact Nat.min_le_left ..
      rw [List.drop_eq_nil_of_le hlen, List.nil_append, rcSession_empty] at ht
      cases ht
      have hunread : newline :: lineStream ls = [] := congrArg RcSession.unread hcons
      cases hunread

/-- A line that fits is framed with the rest. -/
theorem framed_cons {l : Line} (hl : l.Fits) {ls : List Line} {s s₁ : σ} {r : ℤ} {error : String}
    (hr : rcString l.toCString s = some (r, error, s₁)) :
    Framed rcString (l :: ls) s ↔ Framed rcString ls s₁ := by
  have hdone := rcDoCommand_fits rcString hl (lineStream ls) s
  rw [hr] at hdone
  have hpos : (0 : ℤ) < l.strlen := by
    have := hl.1
    omega
  have hsession := rcSession_pos hdone hpos
  unfold Framed
  rw [lineStream_cons, hsession, List.map_cons, rcRun_cons, hr, Option.bind_some]
  constructor
  · rintro ⟨rs, s', hrun, hsess⟩
    obtain ⟨⟨rs₁, s₁'⟩, hrun₁, he⟩ := Option.map_eq_some_iff.mp hrun
    cases he
    obtain ⟨t, ht, hcons⟩ := Option.map_eq_some_iff.mp hsess
    obtain ⟨calls, replies, unread, state⟩ := t
    cases hcons
    exact ⟨rs₁, _, hrun₁, ht⟩
  · rintro ⟨rs, s', hrun, hsess⟩
    refine ⟨r :: rs, s', ?_, ?_⟩
    · rw [hrun]
      rfl
    · rw [hsess]
      rfl

/-- **Exactly the lines of 1 to 511 characters are framed**, as long as `fiu_rc_string` returns. By
    induction on the lines, from any state. -/
theorem framed_iff : ∀ (ls : List Line) (s : σ), Framed rcString ls s ↔
    (∀ l ∈ ls, l.Fits) ∧ rcRun rcString (ls.map Line.toCString) s ≠ none := by
  intro ls
  induction ls with
  | nil =>
    intro s
    refine iff_of_true ⟨[], s, rfl, rcSession_eof s⟩ ⟨?_, Option.some_ne_none _⟩
    exact fun l hl => absurd hl List.not_mem_nil
  | cons l ls ih =>
    intro s
    by_cases hl : l.Fits
    · rw [List.forall_mem_cons, and_iff_right hl, List.map_cons, rcRun_cons]
      rcases hr : rcString l.toCString s with - | ⟨r, error, s₁⟩
      · apply iff_of_false
        · rintro ⟨rs, s', hrun, -⟩
          rw [List.map_cons, rcRun_cons, hr] at hrun
          cases hrun
        · exact fun h => h.2 rfl
      · rw [framed_cons hl hr, ih s₁, Option.bind_some]
        apply and_congr_right
        intro _
        cases rcRun rcString (ls.map Line.toCString) s₁ with
        | none => exact Iff.rfl
        | some t => exact iff_of_true (Option.some_ne_none _) (Option.some_ne_none _)
    · exact iff_of_false (not_framed_cons hl ls s) fun h => hl (h.1 l (List.mem_cons_self ..))

/-! ## On the library

A command is undefined when it hands NULL on where a string or a number is read; else the library
replies, and the line is framed. -/

/-- `fiu_rc_string` on the library. -/
def fiuRcRun {W : Type} (P : Platform) (l : Linker) (strtod : List UInt8 → ℚ) : RcString (Fiu W) :=
  fun cmd s => (fiuRcString strtod cmd).run P l s

/-- **Exactly when the control thread frames its lines**, for every list of lines and from every
    state.

    `Framed` is all of it at once: every line is handed to `fiu_rc_string` once, in order and with
    its whole text, the replies are those to the lines, and 0 is returned at the end of the stream.
    It holds if and only if all lines have 1 to 511 characters and the run of `fiu_rc_string` over
    them is defined, as it is not where a command has a number without a value and NULL is handed to
    libc. -/
theorem rc_do_command_framed_iff {W : Type} (P : Platform) (l : Linker) (strtod : List UInt8 → ℚ)
    (ls : List Line) (s : Fiu W) :
    Framed (fiuRcRun P l strtod) ls s ↔
      (∀ line ∈ ls, line.Fits) ∧ rcRun (fiuRcRun P l strtod) (ls.map Line.toCString) s ≠ none :=
  framed_iff ls s

/-- An empty line in front of a command ends the session; and so does a line of 512 characters. -/
theorem rc_do_command_unframed :
    ¬ Framed (fiuRcRun Platform.ieee noSymbols fun _ => 0)
        [⟨CString.ofArray [], by decide⟩, ⟨CString.ofArray (bytes "enable name=a"), by decide⟩]
        (initialized () 0 0) ∧
    ¬ Framed (fiuRcRun Platform.ieee noSymbols fun _ => 0)
        [⟨CString.ofArray (List.replicate 512 97), by decide +kernel⟩] (initialized () 0 0) := by
  constructor
  · exact not_framed_cons (fun h => absurd h.1 (by decide)) _ _
  · exact not_framed_cons (fun h => absurd h.2 (by decide +kernel)) _ _

end Libfiu
