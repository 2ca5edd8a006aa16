/-
  Named pipes (FIFOs), with one reader and one writer.

  To open an end takes two steps, since it blocks until the other end is opened: the call begins, and
  from then on the end counts for the other side (`openRead`, `openWrite`); it returns once the other
  end was there, which may have closed again by then.  What was written is in the buffer until it is
  read.  It is dropped when both ends are closed.

  The ends keep their own rules (the fields of `Fifo`): nobody waits for an end that is there, and a
  pipe that nobody has open is empty.

  An end is closed, or being opened, or open. A read from an empty pipe blocks while a writer is
  there, and gives the end of the file when none is; a write to a pipe without a reader fails with
  EPIPE. These are the only two errors, and which of them can come up is decided by the ends alone.
-/
import Mathlib

namespace Fifos

/-- An end of a pipe: closed, or being opened, or open. -/
inductive End where
  | closed
  | waiting
  | opened
  deriving DecidableEq

/-- What the other side can do to an end: open it when it waits. -/
def End.Kept (e e' : End) : Prop := (e' = .closed ↔ e = .closed) ∧ (e = .opened → e' = .opened)

/-- Nothing was done to it. -/
theorem End.Kept.refl (e : End) : e.Kept e := ⟨Iff.rfl, id⟩

/-- A pipe. -/
structure Fifo (α : Type) where
  reader : End
  writer : End
  buffer : List α
  readerWaits : reader = .waiting → writer = .closed
  writerWaits : writer = .waiting → reader = .closed
  dropped : reader = .closed → writer = .closed → buffer = []

variable {α : Type}

namespace Fifo

/-- Nobody has the pipe open. -/
def unused : Fifo α where
  reader := .closed
  writer := .closed
  buffer := []
  readerWaits := fun h => by cases h
  writerWaits := fun h => by cases h
  dropped := fun _ _ => rfl

/-- A reader begins to open the pipe: a writer that waits may go on. -/
def openRead (f : Fifo α) : Fifo α :=
  if h : f.writer = .closed then
    { f with
      reader := .waiting
      readerWaits := fun _ => h
      writerWaits := fun h' => by rw [h] at h'; cases h'
      dropped := fun h' => by cases h' }
  else
    { f with
      reader := .opened
      writer := .opened
      readerWaits := fun h' => by cases h'
      writerWaits := fun h' => by cases h'
      dropped := fun h' => by cases h' }

/-- A writer begins to open the pipe: a reader that waits may go on. -/
def openWrite (f : Fifo α) : Fifo α :=
  if h : f.reader = .closed then
    { f with
      writer := .waiting
      readerWaits := fun h' => by rw [h] at h'; cases h'
      writerWaits := fun _ => h
      dropped := fun _ h' => by cases h' }
  else
    { f with
      reader := .opened
      writer := .opened
      readerWaits := fun h' => by cases h'
      writerWaits := fun h' => by cases h'
      dropped := fun h' => by cases h' }

/-- The reader closes the pipe. -/
def closeRead (f : Fifo α) : Fifo α where
  reader := .closed
  writer := f.writer
  buffer := if f.writer = .closed then [] else f.buffer
  readerWaits := fun h => by cases h
  writerWaits := fun _ => rfl
  dropped := fun _ h => if_pos h

/-- The writer closes the pipe. -/
def closeWrite (f : Fifo α) : Fifo α where
  reader := f.reader
  writer := .closed
  buffer := if f.reader = .closed then [] else f.buffer
  readerWaits := fun _ => rfl
  writerWaits := fun h => by cases h
  dropped := fun h _ => if_pos h

/-- Something is written; `none` is `EPIPE`, there is no reader. -/
def write (f : Fifo α) (data : List α) : Option (Fifo α) :=
  if h : f.reader = .closed then none
  else some { f with
    buffer := f.buffer ++ data
    dropped := fun h' => absurd h' h }

/-- Something is taken out of the buffer. -/
def take (f : Fifo α) (rest : List α) (h : f.buffer ≠ []) : Fifo α where
  reader := f.reader
  writer := f.writer
  buffer := rest
  readerWaits := f.readerWaits
  writerWaits := f.writerWaits
  dropped := fun hr hw => absurd (f.dropped hr hw) h

/-- What a `read` gives. -/
inductive Read (β : Type) where
  | blocked
  | eof
  | data (b : β)
  deriving DecidableEq

/-- A read of one byte: it waits for data as long as there is a writer. -/
def readByte (f : Fifo α) : Read (α × Fifo α) :=
  match h : f.buffer with
  | b :: rest => .data (b, f.take rest (by rw [h]; exact List.cons_ne_nil _ _))
  | [] => if f.writer = .closed then .eof else .blocked

/-- A read of all that there is. -/
def readAll (f : Fifo α) : Read (List α × Fifo α) :=
  if h : f.buffer = [] then if f.writer = .closed then .eof else .blocked
  else .data (f.buffer, f.take [] h)

/-! ## What the operations do to the ends

Frame conditions, one for each operation and part of a pipe. -/

variable {f g : Fifo α} {data : List α}

/-- When both ends are there, neither waits. -/
theorem reader_opened (hr : f.reader ≠ .closed) (hw : f.writer ≠ .closed) : f.reader = .opened := by
  cases h : f.reader with
  | closed => exact absurd h hr
  | waiting => exact absurd (f.readerWaits h) hw
  | opened => rfl

/-- The same of the writer. -/
theorem writer_opened (hr : f.reader ≠ .closed) (hw : f.writer ≠ .closed) : f.writer = .opened := by
  cases h : f.writer with
  | closed => exact absurd h hw
  | waiting => exact absurd (f.writerWaits h) hr
  | opened => rfl

/-- The reader is there after it came. -/
theorem openRead_reader (f : Fifo α) : f.openRead.reader ≠ .closed := by
  unfold openRead
  split
  · exact fun h => by cases h
  · exact fun h => by cases h

/-- The writer is there after it came. -/
theorem openWrite_writer (f : Fifo α) : f.openWrite.writer ≠ .closed := by
  unfold openWrite
  split
  · exact fun h => by cases h
  · exact fun h => by cases h

/-- The writer is there after a reader came, as it was before. -/
theorem openRead_writer (f : Fifo α) : f.writer.Kept f.openRead.writer := by
  unfold openRead
  split
  · rename_i h
    exact ⟨Iff.rfl, fun h' => by rw [h] at h'; cases h'⟩
  · rename_i h
    exact ⟨iff_of_false (fun h' => by cases h') h, fun _ => rfl⟩

/-- The reader is there after a writer came, as it was before. -/
theorem openWrite_reader (f : Fifo α) : f.reader.Kept f.openWrite.reader := by
  unfold openWrite
  split
  · rename_i h
    exact ⟨Iff.rfl, fun h' => by rw [h] at h'; cases h'⟩
  · rename_i h
    exact ⟨iff_of_false (fun h' => by cases h') h, fun _ => rfl⟩

/-- What is in the pipe stays when a reader comes. -/
@[simp] theorem openRead_buffer (f : Fifo α) : f.openRead.buffer = f.buffer := by
  unfold openRead
  split
  · rfl
  · rfl

/-- What is in the pipe stays when a writer comes. -/
@[simp] theorem openWrite_buffer (f : Fifo α) : f.openWrite.buffer = f.buffer := by
  unfold openWrite
  split
  · rfl
  · rfl

/-- A reader that closes takes nothing from a writer that is there. -/
theorem closeRead_buffer (h : f.writer ≠ .closed ∨ f.buffer = []) : f.closeRead.buffer = f.buffer := by
  show (if f.writer = .closed then [] else f.buffer) = f.buffer
  rcases h with h | h
  · exact if_neg h
  · rw [h, ite_self]

/-- What was written can still be read. -/
theorem closeWrite_buffer (h : f.buffer = []) : f.closeWrite.buffer = [] := by
  show (if f.reader = .closed then [] else f.buffer) = []
  rw [h, ite_self]

/-! ## Reading and writing

When each of them can be done, and what it gives. -/

/-- What is written comes last. -/
theorem write_eq_some (h : f.write data = some g) :
    f.reader ≠ .closed ∧ g.reader = f.reader ∧ g.writer = f.writer ∧ g.buffer = f.buffer ++ data := by
  unfold write at h
  split at h
  · cases h
  · rename_i hr
    cases h
    exact ⟨hr, rfl, rfl, rfl⟩

/-- `EPIPE` comes exactly when there is no reader. -/
theorem write_eq_none : f.write data = none ↔ f.reader = .closed := by
  unfold write
  split
  · rename_i h
    exact iff_of_true rfl h
  · rename_i h
    exact iff_of_false (fun h' => by cases h') h

/-- The next byte. -/
theorem readByte_cons {b : α} {rest : List α} (h : f.buffer = b :: rest) :
    ∃ g, f.readByte = .data (b, g) ∧ g.reader = f.reader ∧ g.writer = f.writer ∧ g.buffer = rest := by
  unfold readByte
  split
  · rename_i b' rest' h'
    obtain ⟨rfl, rfl⟩ := List.cons.inj (h'.symm.trans h)
    exact ⟨_, rfl, rfl, rfl, rfl⟩
  · rename_i h'
    rw [h'] at h
    cases h

/-- The end of the file comes exactly when the pipe is empty and there is no writer. -/
theorem readByte_nil (h : f.buffer = []) :
    f.readByte = if f.writer = .closed then .eof else .blocked := by
  unfold readByte
  split
  · rename_i h'
    rw [h] at h'
    cases h'
  · rfl

/-- The end of the file. -/
theorem readAll_nil (h : f.buffer = []) :
    f.readAll = if f.writer = .closed then .eof else .blocked := by
  unfold readAll
  rw [dif_pos h]

/-- All that there is. -/
theorem readAll_of_ne (h : f.buffer ≠ []) : ∃ g, f.readAll = .data (f.buffer, g) ∧
    g.reader = f.reader ∧ g.writer = f.writer ∧ g.buffer = [] := by
  unfold readAll
  rw [dif_neg h]
  exact ⟨_, rfl, rfl, rfl, rfl⟩

end Fifo

end Fifos
