/-
  The remote control over named pipes: `rc_fifo_thread` of libfiu/fiu-rc.c and `PipeControl` of
  bindings/python/fiu_ctrl.in.py.

  1. **System** — the control thread and one client take turns (`FifoSys.step`).  A turn is one call
     of `open` (in two parts, it blocks), `read`, `write` or `close`, or the call of `fiu_rc_string`.
     A turn that is blocked is `none`.  A line and a reply are shorter than PIPE_BUF, so each is
     written in one piece.  The opens succeed, and a read does not fail: so `errcount` stays 0, and
     is left out.

  2. **In time** — a client that comes back while the control thread closes its pipes finds the old
     ones.  It then must not write before the control thread opens again the pipe that it reads, nor
     read before that opens again the pipe that it writes (`FifoSys.InTime`).

  3. **Answers** — where the command is that the client waits for is the invariant (`Place`).
     Exactly the runs in time are without an end of file and EPIPE, and in them every command is
     executed once, in order, and answered with its reply (`run_raw_cmd_answered_iff`).

  The invariant (`FifoSys.Serves`) has no clause on time: whether a turn of the client is too early
  can be seen from the two places alone (`tooEarly`), so the condition on a run is one on each turn
  and the state before it. From a state of the invariant a turn that is in time is quiet and keeps
  the invariant, and one that is too early ends in EPIPE or in an end of file
  (`FifoSys.Serves.step`). That makes the result an equivalence.

  What is not modelled: a client that dies, several clients at once (`open` and `write` of two would
  interleave), and signals. EPIPE is an error that `os.write` returns, as it is where SIGPIPE is
  ignored, which is what Python does.
-/
import Libfiu.Lib.Fifo
import Libfiu.RcLine

namespace Libfiu

open Fifos Text

/-! ## The system

Two parties and two pipes. The control thread opens both pipes for each command and closes them
behind the reply; the client opens both for each call. A turn is one system call of one of them.

Opening a FIFO blocks until the other end is opened; that is why an `open` is two turns, one to ask
for it and one to come back from it. -/

/-- Where the control thread is; in `reading` it has the bytes `buf` of a line. -/
inductive ServerPc where
  | openIn
  | openingIn
  | openOut
  | openingOut
  | reading (buf : List UInt8)
  | executing (array : List UInt8)
  | writing (reply : List UInt8)
  | closeIn
  | closeOut
  deriving DecidableEq

/-- Where the client is: between two calls of `run_raw_cmd` (`start`), or in one; in `reading` it has
    the text `acc` of the reply.  At the end of the call the pipes are closed, in either order: in
    `leavingIn` it still has to close the one that it writes, in `leavingOut` the one that it reads. -/
inductive ClientPc where
  | start
  | openingIn
  | openOut
  | openingOut
  | writing
  | reading (acc : List UInt8)
  | leaving
  | leavingIn
  | leavingOut
  deriving DecidableEq

/-- Whose turn it is; `clientOut` is the client that closes first the pipe that it reads. -/
inductive Turn where
  | server
  | client
  | clientOut
  deriving DecidableEq

/-- What went wrong in a turn. -/
inductive FifoEvent where
  | quiet
  | clientEof
  | clientEpipe
  | serverEpipe
  deriving DecidableEq

/-- The control thread and the client: also the calls of `fiu_rc_string` up to now, the commands that
    were not answered, and the answers that the client read. -/
structure FifoSys (σ : Type) where
  server : ServerPc
  client : ClientPc
  pipeIn : Fifo UInt8
  pipeOut : Fifo UInt8
  state : σ
  executed : List CString
  todo : List Line
  replies : List (List UInt8)

variable {σ : Type}

/-- The client is going to issue the commands, and the control thread was started. -/
def FifoSys.start (cmds : List Line) (s : σ) : FifoSys σ where
  server := .openIn
  client := .start
  pipeIn := .unused
  pipeOut := .unused
  state := s
  executed := []
  todo := cmds
  replies := []

/-- What `rc_do_command` does when `read_line` goes on, or returns. -/
def FifoSys.line (t : FifoSys σ) : LineStep → FifoSys σ
  | .more buf => { t with server := .reading buf }
  | .done len array => { t with server := if len ≤ 0 then .closeIn else .executing array }

/-- A turn of `rc_fifo_thread`. -/
def FifoSys.serverStep (rcString : RcString σ) (t : FifoSys σ) : Option (FifoEvent × FifoSys σ) :=
  match t.server with
  | .openIn => some (.quiet, { t with server := .openingIn, pipeIn := t.pipeIn.openRead })
  | .openingIn =>
    if t.pipeIn.reader = .opened then some (.quiet, { t with server := .openOut }) else none
  | .openOut => some (.quiet, { t with server := .openingOut, pipeOut := t.pipeOut.openWrite })
  | .openingOut =>
    if t.pipeOut.writer = .opened then some (.quiet, { t with server := .reading [] }) else none
  | .reading buf =>
    match t.pipeIn.readByte with
    | .blocked => none
    | .eof => some (.quiet, t.line (readLineStep buf .eof))
    | .data (c, pipe) =>
      some (.quiet, FifoSys.line { t with pipeIn := pipe } (readLineStep buf (.byte c)))
  | .executing array => do
    let (r, _, s) ← rcString (CString.ofArray array) t.state
    some (.quiet, { t with
      server := .writing (rcReply r)
      state := s
      executed := t.executed ++ [CString.ofArray array] })
  | .writing reply =>
    match t.pipeOut.write reply with
    | none => some (.serverEpipe, { t with server := .closeIn })
    | some pipe => some (.quiet, { t with server := .reading [], pipeOut := pipe })
  | .closeIn => some (.quiet, { t with server := .closeOut, pipeIn := t.pipeIn.closeRead })
  | .closeOut => some (.quiet, { t with server := .openIn, pipeOut := t.pipeOut.closeWrite })

/-- An exception: the pipes are closed, and no further command is issued. -/
def FifoSys.raise (t : FifoSys σ) : FifoSys σ := { t with client := .leaving, todo := [] }

/-- `readline`, when `acc` was read: up to the first newline. -/
def FifoSys.readline (t : FifoSys σ) (acc : List UInt8) : FifoSys σ :=
  if newline ∈ acc then
    { t with
      client := .leaving
      todo := t.todo.tail
      replies := t.replies ++ [acc.takeWhile (· ≠ newline) ++ [newline]] }
  else { t with client := .reading acc }

/-- A turn of the client in `run_raw_cmd`. -/
def FifoSys.clientStep (t : FifoSys σ) : Option (FifoEvent × FifoSys σ) :=
  match t.client with
  | .start =>
    if t.todo = [] then none
    else some (.quiet, { t with client := .openingIn, pipeIn := t.pipeIn.openWrite })
  | .openingIn =>
    if t.pipeIn.writer = .opened then some (.quiet, { t with client := .openOut }) else none
  | .openOut => some (.quiet, { t with client := .openingOut, pipeOut := t.pipeOut.openRead })
  | .openingOut =>
    if t.pipeOut.reader = .opened then some (.quiet, { t with client := .writing }) else none
  | .writing =>
    match t.todo with
    | [] => none
    | l :: _ =>
      match t.pipeIn.write (l.bytes ++ [newline]) with
      | none => some (.clientEpipe, t.raise)
      | some pipe => some (.quiet, { t with client := .reading [], pipeIn := pipe })
  | .reading acc =>
    match t.pipeOut.readAll with
    | .blocked => none
    | .eof => some (.clientEof, t.raise)
    | .data (text, pipe) => some (.quiet, FifoSys.readline { t with pipeOut := pipe } (acc ++ text))
  | .leaving => some (.quiet, { t with client := .leavingOut, pipeIn := t.pipeIn.closeWrite })
  | .leavingIn => some (.quiet, { t with client := .start, pipeIn := t.pipeIn.closeWrite })
  | .leavingOut => some (.quiet, { t with client := .start, pipeOut := t.pipeOut.closeRead })

/-- A turn. -/
def FifoSys.step (rcString : RcString σ) (t : FifoSys σ) : Turn → Option (FifoEvent × FifoSys σ)
  | .server => t.serverStep rcString
  | .client => t.clientStep
  | .clientOut =>
    if t.client = .leaving then
      some (.quiet, { t with client := .leavingIn, pipeOut := t.pipeOut.closeRead })
    else none

/-- The client is going to write when the control thread closed `fdr` and did not open it again, or
    to read when the control thread closed `fdw` and did not open it again. -/
def tooEarly : ServerPc → ClientPc → Bool
  | .closeOut, .writing => true
  | .openIn, .writing => true
  | .openIn, .reading _ => true
  | .openingIn, .reading _ => true
  | .openOut, .reading _ => true
  | _, _ => false

/-- The turn is not one of a client that came back too early. -/
def FifoSys.InTime (t : FifoSys σ) (turn : Turn) : Prop :=
  turn = .client → tooEarly t.server t.client = false

instance (t : FifoSys σ) (turn : Turn) : Decidable (t.InTime turn) :=
  inferInstanceAs (Decidable (turn = .client → tooEarly t.server t.client = false))

/-- The client is between two calls, and there is no further command. -/
def FifoSys.Finished (t : FifoSys σ) : Prop := t.client = .start ∧ t.todo = []

/-! ## Where the ends and the command are

The invariant has two parts: who has which end of the pipes, by where both parties are; and where
the command of the client is, from the client through the pipe to the control thread and back.

A command is at one place at a time. `Place` is an inductive with one constructor for each, so that
a case split over it gives the whole state of both parties that the place allows. -/

/-- What the control thread has of its pipes: the reading end `r` of the one, and the writing end `w`
    of the other. -/
def ServerPc.Ends (r w : End) : ServerPc → Prop
  | .openIn => r = .closed ∧ w = .closed
  | .openingIn => r ≠ .closed ∧ w = .closed
  | .openOut => r = .opened ∧ w = .closed
  | .openingOut => r = .opened ∧ w ≠ .closed
  | .closeOut => r = .closed ∧ w = .opened
  | .reading _ | .executing _ | .writing _ | .closeIn => r = .opened ∧ w = .opened

/-- What the client has: the writing end `w` of the one, and the reading end `r` of the other. -/
def ClientPc.Ends (w r : End) : ClientPc → Prop
  | .start => w = .closed ∧ r = .closed
  | .openingIn => w ≠ .closed ∧ r = .closed
  | .openOut => w = .opened ∧ r = .closed
  | .openingOut => w = .opened ∧ r ≠ .closed
  | .leavingIn => w = .opened ∧ r = .closed
  | .leavingOut => w = .closed ∧ r = .opened
  | .writing | .reading _ | .leaving => w = .opened ∧ r = .opened

/-- What the other side does to the ends changes nothing here. -/
theorem ServerPc.Ends.kept {pc : ServerPc} {r w r' w' : End} (h : pc.Ends r w) (hr : r.Kept r')
    (hw : w.Kept w') : pc.Ends r' w' := by
  have hrc := hr.1
  have hwc := hw.1
  cases pc with
  | openIn => exact ⟨hrc.mpr h.1, hwc.mpr h.2⟩
  | openingIn => exact ⟨fun h' => h.1 (hrc.mp h'), hwc.mpr h.2⟩
  | openOut => exact ⟨hr.2 h.1, hwc.mpr h.2⟩
  | openingOut => exact ⟨hr.2 h.1, fun h' => h.2 (hwc.mp h')⟩
  | closeOut => exact ⟨hrc.mpr h.1, hw.2 h.2⟩
  | reading _ | executing _ | writing _ | closeIn => exact ⟨hr.2 h.1, hw.2 h.2⟩

/-- The same for the client. -/
theorem ClientPc.Ends.kept {pc : ClientPc} {w r w' r' : End} (h : pc.Ends w r) (hw : w.Kept w')
    (hr : r.Kept r') : pc.Ends w' r' := by
  have hrc := hr.1
  have hwc := hw.1
  cases pc with
  | start => exact ⟨hwc.mpr h.1, hrc.mpr h.2⟩
  | openingIn => exact ⟨fun h' => h.1 (hwc.mp h'), hrc.mpr h.2⟩
  | openOut | leavingIn => exact ⟨hw.2 h.1, hrc.mpr h.2⟩
  | openingOut => exact ⟨hw.2 h.1, fun h' => h.2 (hrc.mp h')⟩
  | leavingOut => exact ⟨hwc.mpr h.1, hr.2 h.2⟩
  | writing | reading _ | leaving => exact ⟨hw.2 h.1, hr.2 h.2⟩

/-- What the control thread has read of a line, when it is not at work on one. -/
def ServerPc.held : ServerPc → Option (List UInt8)
  | .reading buf => some buf
  | .executing _ | .writing _ => none
  | .openIn | .openingIn | .openOut | .openingOut | .closeIn | .closeOut => some []

/-- The client is in `run_raw_cmd`, and has not written its line. -/
def ClientPc.Asks : ClientPc → Prop
  | .openingIn | .openOut | .openingOut | .writing => True
  | .start | .reading _ | .leaving | .leavingIn | .leavingOut => False

/-- The client waits for a reply. -/
def ClientPc.reads : ClientPc → Bool
  | .reading _ => true
  | .start | .openingIn | .openOut | .openingOut | .writing | .leaving | .leavingIn | .leavingOut => false

section Serving

variable (rcString : RcString σ) (s₀ : σ)

/-- The commands `ls` were executed, and returned `rs`. -/
structure FifoSys.Executed (t : FifoSys σ) (ls : List Line) (rs : List ℤ) : Prop where
  calls : t.executed = ls.map Line.toCString
  run : rcRun rcString (ls.map Line.toCString) s₀ = some (rs, t.state)

/-- Where the command of the client is, `ls` having been answered with `rs`: there is none; or it is
    on its way, read in part; or `fiu_rc_string` is called with it; or it was called, and the reply is
    not written, or not read. -/
inductive FifoSys.Place (t : FifoSys σ) (ls : List Line) (rs : List ℤ) : Prop
  | idle (hclient : t.client.reads = false) (hdone : t.Executed rcString s₀ ls rs)
      (hserver : t.server.held = some []) (hin : t.pipeIn.buffer = []) (hout : t.pipeOut.buffer = [])
  | sent (l : Line) (rest : List Line) (buf : List UInt8) (hclient : t.client = .reading [])
      (htodo : t.todo = l :: rest) (hdone : t.Executed rcString s₀ ls rs)
      (hserver : t.server.held = some buf) (hin : buf ++ t.pipeIn.buffer = l.bytes ++ [newline])
      (hne : t.pipeIn.buffer ≠ []) (hout : t.pipeOut.buffer = [])
  | taken (l : Line) (rest : List Line) (hclient : t.client = .reading [])
      (htodo : t.todo = l :: rest) (hdone : t.Executed rcString s₀ ls rs)
      (hserver : t.server = .executing (l.bytes ++ [0])) (hin : t.pipeIn.buffer = [])
      (hout : t.pipeOut.buffer = [])
  | executed (l : Line) (rest : List Line) (r : ℤ) (hclient : t.client = .reading [])
      (htodo : t.todo = l :: rest) (hdone : t.Executed rcString s₀ (ls ++ [l]) (rs ++ [r]))
      (hserver : t.server = .writing (rcReply r)) (hin : t.pipeIn.buffer = [])
      (hout : t.pipeOut.buffer = [])
  | replied (l : Line) (rest : List Line) (r : ℤ) (hclient : t.client = .reading [])
      (htodo : t.todo = l :: rest) (hdone : t.Executed rcString s₀ (ls ++ [l]) (rs ++ [r]))
      (hserver : t.server = .reading []) (hin : t.pipeIn.buffer = [])
      (hout : t.pipeOut.buffer = rcReply r)

/-- **The invariant.** -/
structure FifoSys.Serves (cmds : List Line) (t : FifoSys σ) : Prop where
  server : t.server.Ends t.pipeIn.reader t.pipeOut.writer
  client : t.client.Ends t.pipeIn.writer t.pipeOut.reader
  asks : t.client.Asks → t.todo ≠ []
  place : ∃ ls rs, cmds = ls ++ t.todo ∧ t.replies = rs.map rcReply ∧ t.Place rcString s₀ ls rs

end Serving

variable {rcString : RcString σ} {s₀ : σ} {cmds ls : List Line} {rs : List ℤ} {t t' : FifoSys σ}
  {e : FifoEvent}

/-! ## The turns of the control thread

Each lemma is about a group of turns that do the same to the command: nothing, to move it on, or to
answer it. -/

/-- As long as the control thread is not at work and does not read, it leaves the command alone. -/
theorem FifoSys.Place.resting (h : t.Place rcString s₀ ls rs) (hserver : t.server.held = some [])
    (hne : t.server ≠ .reading []) (hserver' : t'.server.held = some [])
    (hclient : t'.client = t.client) (htodo : t'.todo = t.todo) (hcalls : t'.executed = t.executed)
    (hstate : t'.state = t.state) (hin : t'.pipeIn.buffer = t.pipeIn.buffer)
    (hout : t'.pipeOut.buffer = t.pipeOut.buffer) : t'.Place rcString s₀ ls rs := by
  have hdone : ∀ {ls rs}, t.Executed rcString s₀ ls rs → t'.Executed rcString s₀ ls rs :=
    fun h => ⟨hcalls.trans h.calls, by rw [hstate]; exact h.run⟩
  cases h with
  | idle hclient₀ hdone₀ _ hin₀ hout₀ =>
    exact .idle (by rwa [hclient]) (hdone hdone₀) hserver' (hin.trans hin₀) (hout.trans hout₀)
  | sent l rest buf hclient₀ htodo₀ hdone₀ hserver₀ hin₀ hne₀ hout₀ =>
    obtain rfl : [] = buf := Option.some.inj (hserver.symm.trans hserver₀)
    exact .sent l rest [] (hclient.trans hclient₀) (htodo.trans htodo₀) (hdone hdone₀) hserver'
      (by rw [hin]; exact hin₀) (by rwa [hin]) (hout.trans hout₀)
  | taken _ _ _ _ _ hserver₀ =>
    rw [hserver₀] at hserver
    cases hserver
  | executed _ _ _ _ _ _ hserver₀ =>
    rw [hserver₀] at hserver
    cases hserver
  | replied _ _ _ _ _ _ hserver₀ => exact absurd hserver₀ hne

/-- Nothing that is in the pipe of the commands can be dropped. -/
theorem FifoSys.Serves.pipeIn_kept (h : t.Serves rcString s₀ cmds) :
    t.pipeIn.writer ≠ .closed ∨ t.pipeIn.buffer = [] := by
  obtain ⟨ls, rs, -, -, hplace⟩ := h.place
  have hends := h.client
  cases hplace with
  | idle _ _ _ hin _ => exact .inr hin
  | sent _ _ _ hclient | taken _ _ hclient | executed _ _ _ hclient | replied _ _ _ hclient =>
    rw [hclient] at hends
    exact .inl fun hclosed => by rw [hends.1] at hclosed; cases hclosed

/-- In the pipe of the replies there is nothing when the control thread neither is at work nor
    reads. -/
theorem FifoSys.Place.pipeOut_nil (h : t.Place rcString s₀ ls rs) (hne : t.server ≠ .reading []) :
    t.pipeOut.buffer = [] := by
  cases h with
  | idle _ _ _ _ hout | sent _ _ _ _ _ _ _ _ _ hout | taken _ _ _ _ _ _ _ hout
  | executed _ _ _ _ _ _ _ _ hout => exact hout
  | replied _ _ _ _ _ _ hserver => exact absurd hserver hne

/-- A byte of a line that is not the last one is stored; the newline ends the line. -/
theorem readLineStep_sent {l : Line} (hl : l.Fits) {buf rest : List UInt8} {c : UInt8}
    (h : buf ++ c :: rest = l.bytes ++ [newline]) :
    (rest = [] ∧ readLineStep buf (.byte c) = .done l.strlen (l.bytes ++ [0])) ∨
      (rest ≠ [] ∧ readLineStep buf (.byte c) = .more (buf ++ [c])) := by
  have hlen := congrArg List.length h
  simp only [List.length_append, List.length_cons, List.length_nil] at hlen
  by_cases hrest : rest = []
  · subst hrest
    obtain ⟨rfl, hc⟩ := List.append_inj' h rfl
    obtain rfl : c = newline := (List.cons.inj hc).1
    have hlast : (l.bytes ++ [newline]).getLast? = some newline := List.getLast?_concat
    refine .inl ⟨rfl, ?_⟩
    rw [readLineStep_byte, if_neg fun h => h.1 rfl, readLineEnd, if_pos hlast, List.dropLast_concat,
      List.length_append]
    simp [CString.strlen]
  · -- `c` is one of the bytes of the line
    have hmem : c ∈ l.bytes := by
      have hbuf : buf ++ [c] <+: l.bytes ++ [newline] := ⟨rest, by rw [← h, List.append_assoc]; rfl⟩
      have hpos := List.length_pos_of_ne_nil hrest
      have hpre : buf ++ [c] <+: l.bytes := by
        apply List.prefix_of_prefix_length_le hbuf (List.prefix_append ..)
        simp only [List.length_append, List.length_cons, List.length_nil]
        omega
      exact hpre.subset (List.mem_append_right _ (List.mem_singleton_self c))
    have hlt : buf.length + 1 < maxLine := by
      have hpos := List.length_pos_of_ne_nil hrest
      have hfit : l.bytes.length ≤ 511 := hl.2
      show buf.length + 1 < 512
      omega
    have hline : c ≠ newline := fun hc => l.noNewline (hc ▸ hmem)
    have hnul : c ≠ 0 := fun hc => l.noNul (hc ▸ hmem)
    exact .inr ⟨hrest, by rw [readLineStep_byte, if_pos ⟨hline, hnul, hlt⟩]⟩

/-- A turn that neither begins nor ends a call of `run_raw_cmd`. -/
theorem FifoSys.Serves.turn (h : t.Serves rcString s₀ cmds)
    (hserver : t'.server.Ends t'.pipeIn.reader t'.pipeOut.writer)
    (hclient : t'.client.Ends t'.pipeIn.writer t'.pipeOut.reader)
    (hasks : t'.client.Asks → t.client.Asks) (htodo : t'.todo = t.todo) (hreplies : t'.replies = t.replies)
    (hplace : ∀ ls rs, cmds = ls ++ t.todo → t.Place rcString s₀ ls rs → t'.Place rcString s₀ ls rs) :
    t'.Serves rcString s₀ cmds := by
  obtain ⟨ls, rs, hcmds, hrs, hp⟩ := h.place
  refine ⟨hserver, hclient, ?_, ls, rs, ?_, ?_, hplace ls rs hcmds hp⟩
  · rw [htodo]
    exact fun ha => h.asks (hasks ha)
  · rw [htodo]
    exact hcmds
  · rw [hreplies]
    exact hrs

/-- **The turns in which the control thread opens or closes.** -/
theorem FifoSys.Serves.resting (h : t.Serves rcString s₀ cmds) (hserver : t.server.held = some [])
    (hne : t.server ≠ .reading []) (hserver' : t'.server.held = some [])
    (hclient : t'.client = t.client) (htodo : t'.todo = t.todo) (hreplies : t'.replies = t.replies)
    (hcalls : t'.executed = t.executed) (hstate : t'.state = t.state)
    (hin : t'.pipeIn.buffer = t.pipeIn.buffer) (hout : t'.pipeOut.buffer = t.pipeOut.buffer)
    (hends : t'.server.Ends t'.pipeIn.reader t'.pipeOut.writer)
    (hkin : t.pipeIn.writer.Kept t'.pipeIn.writer) (hkout : t.pipeOut.reader.Kept t'.pipeOut.reader) :
    t'.Serves rcString s₀ cmds := by
  refine h.turn hends ?_ (by rw [hclient]; exact id) htodo hreplies fun ls rs _ hplace => ?_
  · rw [hclient]
    exact h.client.kept hkin hkout
  · exact hplace.resting hserver hne hserver' hclient htodo hcalls hstate hin hout

/-- **The turns in which it reads.** -/
theorem FifoSys.Serves.read (hfit : ∀ l ∈ cmds, l.Fits) (h : t.Serves rcString s₀ cmds) {buf : List UInt8}
    (hpc : t.server = .reading buf) (hstep : t.serverStep rcString = some (e, t')) :
    e = .quiet ∧ t'.Serves rcString s₀ cmds := by
  have hends := h.server
  rw [hpc] at hends
  unfold serverStep at hstep
  rw [hpc] at hstep
  dsimp only at hstep
  by_cases hnil : t.pipeIn.buffer = []
  · -- the end of the file: there is no writer, so no command
    rw [Fifo.readByte_nil hnil] at hstep
    by_cases hw : t.pipeIn.writer = .closed
    · rw [if_pos hw] at hstep
      have hidle : buf = [] ∧ t.client.reads = false := by
        have hcl := h.client
        obtain ⟨ls, rs, -, -, hplace⟩ := h.place
        cases hplace with
        | idle hclient _ hserver =>
          rw [hpc] at hserver
          exact ⟨Option.some.inj hserver, hclient⟩
        | sent _ _ _ hclient | taken _ _ hclient | executed _ _ _ hclient | replied _ _ _ hclient =>
          rw [hclient] at hcl
          exact absurd (hw.symm.trans hcl.1) (by decide)
      obtain ⟨rfl, hclient⟩ := hidle
      cases hstep
      refine ⟨rfl, h.turn hends h.client id rfl rfl fun ls rs _ hplace => ?_⟩
      cases hplace with
      | idle _ hdone _ hin hout => exact .idle hclient ⟨hdone.calls, hdone.run⟩ rfl hin hout
      | sent _ _ _ hread | taken _ _ hread | executed _ _ _ hread | replied _ _ _ hread =>
        rw [hread] at hclient
        cases hclient
    · rw [if_neg hw] at hstep
      cases hstep
  · -- a byte of the line that is on its way
    obtain ⟨c, rest, hbuf⟩ := List.exists_cons_of_ne_nil hnil
    obtain ⟨pipe, hread, hr, hw, hb⟩ := Fifo.readByte_cons hbuf
    rw [hread] at hstep
    cases hstep
    refine ⟨rfl, ?_⟩
    obtain ⟨ls, rs, hcmds, hrs, hplace⟩ := h.place
    cases hplace with
    | idle _ _ _ hin | taken _ _ _ _ _ _ hin | executed _ _ _ _ _ _ _ hin
    | replied _ _ _ _ _ _ _ hin => exact absurd hin hnil
    | sent l tl buf' hclient htodo hdone hserver hin hne hout =>
      obtain rfl : buf = buf' := by
        rw [hpc] at hserver
        exact Option.some.inj hserver
      have hl : l.Fits := hfit l (by rw [hcmds, htodo]; simp)
      rw [hbuf] at hin
      rcases readLineStep_sent hl hin with ⟨hnil', hdone'⟩ | ⟨hne', hmore⟩
      · -- its last byte: the line is handed over
        rw [hdone']
        have hpos : ¬ (l.strlen : ℤ) ≤ 0 := by
          have := hl.1
          omega
        unfold line
        dsimp only
        rw [if_neg hpos]
        refine ⟨?_, ?_, h.asks, ls, rs, hcmds, hrs, ?_⟩
        · show ServerPc.Ends pipe.reader t.pipeOut.writer (.executing _)
          rw [hr]
          exact hends
        · show t.client.Ends pipe.writer t.pipeOut.reader
          rw [hw]
          exact h.client
        · exact .taken l tl hclient htodo ⟨hdone.calls, hdone.run⟩ rfl (hb.trans hnil') hout
      · -- more of it is still in the pipe
        rw [hmore]
        unfold line
        dsimp only
        refine ⟨?_, ?_, h.asks, ls, rs, hcmds, hrs, ?_⟩
        · show ServerPc.Ends pipe.reader t.pipeOut.writer (.reading _)
          rw [hr]
          exact hends
        · show t.client.Ends pipe.writer t.pipeOut.reader
          rw [hw]
          exact h.client
        · refine .sent l tl (buf ++ [c]) hclient htodo ⟨hdone.calls, hdone.run⟩ rfl ?_ ?_ hout
          · show buf ++ [c] ++ pipe.buffer = _
            rw [hb, List.append_assoc]
            exact hin
          · show pipe.buffer ≠ []
            rw [hb]
            exact hne'

/-- **The call of `fiu_rc_string`.** -/
theorem FifoSys.Serves.execute (h : t.Serves rcString s₀ cmds) {array : List UInt8}
    (hpc : t.server = .executing array) (hstep : t.serverStep rcString = some (e, t')) :
    e = .quiet ∧ t'.Serves rcString s₀ cmds := by
  have hends := h.server
  rw [hpc] at hends
  unfold serverStep at hstep
  rw [hpc] at hstep
  simp only [Option.bind_eq_bind, Option.bind_eq_some_iff, Option.some.injEq, Prod.mk.injEq] at hstep
  obtain ⟨⟨r, error, s⟩, hr, rfl, rfl⟩ := hstep
  refine ⟨rfl, h.turn hends h.client id rfl rfl fun ls rs _ hplace => ?_⟩
  cases hplace with
  | idle _ _ hserver | sent _ _ _ _ _ _ hserver =>
    rw [hpc] at hserver
    cases hserver
  | executed _ _ _ _ _ _ hserver | replied _ _ _ _ _ _ hserver =>
    rw [hpc] at hserver
    cases hserver
  | taken l rest hclient htodo hdone hserver hin hout =>
    obtain rfl : array = l.bytes ++ [0] := by
      rw [hpc] at hserver
      cases hserver
      rfl
    rw [l.ofArray_ended] at hr
    refine .executed l rest r hclient htodo ⟨?_, ?_⟩ rfl hin hout
    · show t.executed ++ [CString.ofArray (l.bytes ++ [0])] = _
      rw [hdone.calls, l.ofArray_ended, List.map_append]
      rfl
    · rw [List.map_append, rcRun_append, hdone.run, Option.bind_some]
      show (rcRun rcString [l.toCString] t.state).map _ = _
      rw [rcRun_cons, hr]
      rfl

/-- **The reply.**  The client is there to read it. -/
theorem FifoSys.Serves.write (h : t.Serves rcString s₀ cmds) {reply : List UInt8}
    (hpc : t.server = .writing reply) (hstep : t.serverStep rcString = some (e, t')) :
    e = .quiet ∧ t'.Serves rcString s₀ cmds := by
  have hends := h.server
  have hcl := h.client
  rw [hpc] at hends
  unfold serverStep at hstep
  rw [hpc] at hstep
  dsimp only at hstep
  obtain ⟨ls, rs, hcmds, hrs, hplace⟩ := h.place
  cases hplace with
  | idle _ _ hserver | sent _ _ _ _ _ _ hserver =>
    rw [hpc] at hserver
    cases hserver
  | taken _ _ _ _ _ hserver | replied _ _ _ _ _ _ hserver =>
    rw [hpc] at hserver
    cases hserver
  | executed l rest r hclient htodo hdone hserver hin hout =>
    obtain rfl : reply = rcReply r := by
      rw [hpc] at hserver
      cases hserver
      rfl
    rw [hclient] at hcl
    rcases hwrite : t.pipeOut.write (rcReply r) with - | pipe
    · -- there is a reader
      have hclosed := Fifo.write_eq_none.mp hwrite
      exact absurd (hclosed.symm.trans hcl.2) (by decide)
    · obtain ⟨-, hr, hw, hb⟩ := Fifo.write_eq_some hwrite
      rw [hwrite] at hstep
      cases hstep
      refine ⟨rfl, ?_, ?_, h.asks, ls, rs, hcmds, hrs, ?_⟩
      · show ServerPc.Ends t.pipeIn.reader pipe.writer (.reading [])
        rw [hw]
        exact hends
      · show t.client.Ends t.pipeIn.writer pipe.reader
        rw [hr]
        exact h.client
      · refine .replied l rest r hclient htodo ⟨hdone.calls, hdone.run⟩ rfl hin ?_
        show pipe.buffer = rcReply r
        rw [hb, hout]
        rfl

/-- **A turn of the control thread.** -/
theorem FifoSys.Serves.serverStep (hfit : ∀ l ∈ cmds, l.Fits) (h : t.Serves rcString s₀ cmds)
    (hstep : t.serverStep rcString = some (e, t')) : e = .quiet ∧ t'.Serves rcString s₀ cmds := by
  have hends := h.server
  rcases hpc : t.server with - | - | - | - | buf | array | reply | - | -
  case reading => exact h.read hfit hpc hstep
  case executing => exact h.execute hpc hstep
  case writing => exact h.write hpc hstep
  all_goals
    have hheld : t.server.held = some [] := by rw [hpc]; rfl
    have hne : t.server ≠ .reading [] := by rw [hpc]; exact fun h => by cases h
    rw [hpc] at hends
    unfold FifoSys.serverStep at hstep
    rw [hpc] at hstep
    dsimp only at hstep
  case openIn =>
    cases hstep
    exact ⟨rfl, h.resting hheld hne rfl rfl rfl rfl rfl rfl (Fifo.openRead_buffer _) rfl
      ⟨Fifo.openRead_reader _, hends.2⟩ (Fifo.openRead_writer _) (.refl _)⟩
  case openingIn =>
    split at hstep
    · rename_i hopen
      cases hstep
      exact ⟨rfl, h.resting hheld hne rfl rfl rfl rfl rfl rfl rfl rfl ⟨hopen, hends.2⟩ (.refl _)
        (.refl _)⟩
    · cases hstep
  case openOut =>
    cases hstep
    exact ⟨rfl, h.resting hheld hne rfl rfl rfl rfl rfl rfl rfl (Fifo.openWrite_buffer _)
      ⟨hends.1, Fifo.openWrite_writer _⟩ (.refl _) (Fifo.openWrite_reader _)⟩
  case openingOut =>
    split at hstep
    · rename_i hopen
      cases hstep
      exact ⟨rfl, h.resting hheld hne rfl rfl rfl rfl rfl rfl rfl rfl ⟨hends.1, hopen⟩ (.refl _)
        (.refl _)⟩
    · cases hstep
  case closeIn =>
    cases hstep
    exact ⟨rfl, h.resting hheld hne rfl rfl rfl rfl rfl rfl (Fifo.closeRead_buffer h.pipeIn_kept) rfl
      ⟨rfl, hends.2⟩ (.refl _) (.refl _)⟩
  case closeOut =>
    cases hstep
    have hnil : t.pipeOut.buffer = [] := by
      obtain ⟨ls, rs, -, -, hplace⟩ := h.place
      exact hplace.pipeOut_nil hne
    exact ⟨rfl, h.resting hheld hne rfl rfl rfl rfl rfl rfl rfl
      ((Fifo.closeWrite_buffer hnil).trans hnil.symm) ⟨hends.1, rfl⟩ (.refl _) (.refl _)⟩

/-! ## The turns of the client

The client is the one that can be wrong: it may come back while the control thread still has the old
ends of the pipes, or none.

A turn that is too early runs into an error at once; that is the other half of the equivalence, and
it is shown at the two places where it can happen, the writing of the line and the reading of the
reply. -/

/-- Where nothing waits for a reply. -/
theorem FifoSys.Place.of_client (h : t.Place rcString s₀ ls rs)
    (hclient : t.client.reads = false) :
    t.Executed rcString s₀ ls rs ∧ t.server.held = some [] ∧ t.pipeIn.buffer = [] ∧
      t.pipeOut.buffer = [] := by
  cases h with
  | idle _ hdone hserver hin hout => exact ⟨hdone, hserver, hin, hout⟩
  | sent _ _ _ h | taken _ _ h | executed _ _ _ h | replied _ _ _ h =>
    rw [h] at hclient
    cases hclient

/-- **The turns in which the client opens or closes.** -/
theorem FifoSys.Serves.roaming (h : t.Serves rcString s₀ cmds) (hclient : t.client.reads = false)
    (hclient' : t'.client.reads = false) (hserver : t'.server = t.server)
    (htodo : t'.todo = t.todo) (hreplies : t'.replies = t.replies) (hcalls : t'.executed = t.executed)
    (hstate : t'.state = t.state) (hin : t.pipeIn.buffer = [] → t'.pipeIn.buffer = [])
    (hout : t.pipeOut.buffer = [] → t'.pipeOut.buffer = [])
    (hends : t'.client.Ends t'.pipeIn.writer t'.pipeOut.reader)
    (hkin : t.pipeIn.reader.Kept t'.pipeIn.reader) (hkout : t.pipeOut.writer.Kept t'.pipeOut.writer)
    (hasks : t'.client.Asks → t.todo ≠ []) : t'.Serves rcString s₀ cmds := by
  obtain ⟨ls, rs, hcmds, hrs, hplace⟩ := h.place
  obtain ⟨hdone, hheld, hin₀, hout₀⟩ := hplace.of_client hclient
  refine ⟨?_, hends, ?_, ls, rs, ?_, ?_, .idle hclient' ⟨?_, ?_⟩ ?_ (hin hin₀) (hout hout₀)⟩
  · rw [hserver]
    exact h.server.kept hkin hkout
  · rwa [htodo]
  · rwa [htodo]
  · rwa [hreplies]
  · rw [hcalls]
    exact hdone.calls
  · rw [hstate]
    exact hdone.run
  · rwa [hserver]

/-- **The turn in which it writes its line**: the control thread must have its pipe open. -/
theorem FifoSys.Serves.ask (h : t.Serves rcString s₀ cmds) (hpc : t.client = .writing)
    (hstep : t.clientStep = some (e, t')) :
    (e = .quiet ↔ tooEarly t.server t.client = false) ∧
      (tooEarly t.server t.client = false → t'.Serves rcString s₀ cmds) := by
  have hends := h.client
  have hsv := h.server
  rw [hpc] at hends ⊢
  unfold clientStep at hstep
  rw [hpc] at hstep
  dsimp only at hstep
  split at hstep
  · cases hstep
  rename_i l tl htodo
  -- between its close and its open the control thread has no reading end, and else it has
  have hearly : tooEarly t.server .writing = false ↔ t.pipeIn.reader ≠ .closed := by
    rcases hserver : t.server with - | - | - | - | buf | array | reply | - | -
    all_goals rw [hserver] at hsv
    case openIn | closeOut => exact iff_of_false Bool.noConfusion fun hne => hne hsv.1
    case openingIn => exact iff_of_true rfl hsv.1
    all_goals exact iff_of_true rfl fun hclosed => absurd (hclosed.symm.trans hsv.1) (by decide)
  rw [hearly]
  rcases hwrite : t.pipeIn.write (l.bytes ++ [newline]) with - | pipe
  · have hclosed := Fifo.write_eq_none.mp hwrite
    rw [hwrite] at hstep
    cases hstep
    exact ⟨iff_of_false (by decide) (not_not_intro hclosed), fun hne => absurd hclosed hne⟩
  · obtain ⟨hreader, hr, hw, hb⟩ := Fifo.write_eq_some hwrite
    rw [hwrite] at hstep
    cases hstep
    refine ⟨iff_of_true rfl hreader, fun _ => ?_⟩
    obtain ⟨ls, rs, hcmds, hrs, hplace⟩ := h.place
    obtain ⟨hdone, hheld, hin, hout⟩ := hplace.of_client (by rw [hpc]; rfl)
    refine ⟨?_, ?_, fun ha => False.elim ha, ls, rs, hcmds, hrs, ?_⟩
    · show t.server.Ends pipe.reader t.pipeOut.writer
      rwa [hr]
    · show ClientPc.Ends pipe.writer t.pipeOut.reader (.reading [])
      rwa [hw]
    · rw [hin, List.nil_append] at hb
      refine .sent l tl [] rfl htodo ⟨hdone.calls, hdone.run⟩ hheld ?_ ?_ hout
      · show [] ++ pipe.buffer = _
        rw [hb, List.nil_append]
      · show pipe.buffer ≠ []
        rw [hb]
        exact List.append_ne_nil_of_right_ne_nil _ (List.cons_ne_nil _ _)

/-- A reply is one line. -/
theorem rcReply_line (r : ℤ) : newline ∈ rcReply r ∧
    (rcReply r).takeWhile (· ≠ newline) ++ [newline] = rcReply r := by
  have hclean : ∀ b ∈ decimalInt r, decide (b ≠ newline) = true := by
    intro b hb
    refine decide_eq_true fun hline => decimalInt_clean hb ?_
    rw [hline]
    decide
  refine ⟨List.mem_append_right _ (List.mem_singleton_self _), ?_⟩
  have htake : (rcReply r).takeWhile (· ≠ newline) = decimalInt r := by
    unfold rcReply
    rw [List.takeWhile_append_of_pos hclean]
    exact List.append_nil _
  rw [htake]
  rfl

/-- **The turn in which it reads the reply**: the control thread must have its pipe open. -/
theorem FifoSys.Serves.answer (h : t.Serves rcString s₀ cmds) {acc : List UInt8}
    (hpc : t.client = .reading acc) (hstep : t.clientStep = some (e, t')) :
    (e = .quiet ↔ tooEarly t.server t.client = false) ∧
      (tooEarly t.server t.client = false → t'.Serves rcString s₀ cmds) := by
  have hends := h.client
  have hsv := h.server
  rw [hpc] at hends ⊢
  unfold clientStep at hstep
  rw [hpc] at hstep
  dsimp only at hstep
  have hearly : tooEarly t.server (.reading acc) = false ↔ t.pipeOut.writer ≠ .closed := by
    rcases hserver : t.server with - | - | - | - | buf | array | reply | - | -
    all_goals rw [hserver] at hsv
    case openIn | openingIn | openOut => exact iff_of_false Bool.noConfusion fun hne => hne hsv.2
    case openingOut => exact iff_of_true rfl hsv.2
    all_goals exact iff_of_true rfl fun hclosed => absurd (hclosed.symm.trans hsv.2) (by decide)
  rw [hearly]
  obtain ⟨ls, rs, hcmds, hrs, hplace⟩ := h.place
  by_cases hnil : t.pipeOut.buffer = []
  · -- there is no reply yet
    rw [Fifo.readAll_nil hnil] at hstep
    by_cases hw : t.pipeOut.writer = .closed
    · rw [if_pos hw] at hstep
      cases hstep
      exact ⟨iff_of_false (by decide) (not_not_intro hw), fun hne => absurd hw hne⟩
    · rw [if_neg hw] at hstep
      cases hstep
  · obtain ⟨pipe, hread, hr, hw, hb⟩ := Fifo.readAll_of_ne hnil
    rw [hread] at hstep
    cases hplace with
    | idle _ _ _ _ hout | sent _ _ _ _ _ _ _ _ _ hout | taken _ _ _ _ _ _ _ hout
    | executed _ _ _ _ _ _ _ _ hout => exact absurd hout hnil
    | replied l tl r hclient htodo hdone hserver hin hout =>
      obtain rfl : [] = acc := by
        rw [hpc] at hclient
        cases hclient
        rfl
      obtain ⟨hline, htext⟩ := rcReply_line r
      rw [hout] at hstep
      dsimp only [readline] at hstep
      rw [List.nil_append, if_pos hline, htext] at hstep
      cases hstep
      rw [hserver] at hsv
      have hopen : t.pipeOut.writer ≠ .closed := fun hc => absurd (hc.symm.trans hsv.2) (by decide)
      refine ⟨iff_of_true rfl hopen, fun _ => ?_⟩
      refine ⟨?_, ?_, fun ha => False.elim ha, ls ++ [l], rs ++ [r], ?_, ?_, ?_⟩
      · show t.server.Ends t.pipeIn.reader pipe.writer
        rw [hw]
        exact h.server
      · show ClientPc.Ends t.pipeIn.writer pipe.reader .leaving
        rw [hr]
        exact hends
      · show cmds = ls ++ [l] ++ t.todo.tail
        rw [hcmds, htodo, List.append_assoc]
        rfl
      · show t.replies ++ [rcReply r] = (rs ++ [r]).map rcReply
        rw [hrs, List.map_append]
        rfl
      · refine .idle rfl ⟨hdone.calls, hdone.run⟩ ?_ hin hb
        show t.server.held = some []
        rw [hserver]
        rfl

/-- **A turn of the client.** -/
theorem FifoSys.Serves.clientStep (h : t.Serves rcString s₀ cmds) (hstep : t.clientStep = some (e, t')) :
    (e = .quiet ↔ tooEarly t.server t.client = false) ∧
      (tooEarly t.server t.client = false → t'.Serves rcString s₀ cmds) := by
  have hends := h.client
  have hasks := h.asks
  rcases hpc : t.client with - | - | - | - | - | acc | - | - | -
  case writing => rw [← hpc]; exact h.ask hpc hstep
  case reading => rw [← hpc]; exact h.answer hpc hstep
  all_goals
    have hne : t.client.reads = false := by rw [hpc]; rfl
    have hquiet : tooEarly t.server t.client = false := by rw [hpc]; cases t.server <;> rfl
    rw [hpc] at hends hasks hquiet
    unfold FifoSys.clientStep at hstep
    rw [hpc] at hstep
    dsimp only at hstep
    suffices e = .quiet ∧ t'.Serves rcString s₀ cmds from
      ⟨iff_of_true this.1 hquiet, fun _ => this.2⟩
  case start =>
    split at hstep
    · cases hstep
    · rename_i htodo
      cases hstep
      exact ⟨rfl, h.roaming hne rfl rfl rfl rfl rfl rfl (Fifo.openWrite_buffer _).trans id
        ⟨Fifo.openWrite_writer _, hends.2⟩ (Fifo.openWrite_reader _) (.refl _) fun _ => htodo⟩
  case openingIn =>
    split at hstep
    · rename_i hopen
      cases hstep
      exact ⟨rfl, h.roaming hne rfl rfl rfl rfl rfl rfl id id ⟨hopen, hends.2⟩ (.refl _)
        (.refl _) fun _ => hasks trivial⟩
    · cases hstep
  case openOut =>
    cases hstep
    exact ⟨rfl, h.roaming hne rfl rfl rfl rfl rfl rfl id (Fifo.openRead_buffer _).trans
      ⟨hends.1, Fifo.openRead_reader _⟩ (.refl _) (Fifo.openRead_writer _) fun _ => hasks trivial⟩
  case openingOut =>
    split at hstep
    · rename_i hopen
      cases hstep
      exact ⟨rfl, h.roaming hne rfl rfl rfl rfl rfl rfl id id ⟨hends.1, hopen⟩ (.refl _)
        (.refl _) fun _ => hasks trivial⟩
    · cases hstep
  case leaving =>
    cases hstep
    exact ⟨rfl, h.roaming hne rfl rfl rfl rfl rfl rfl Fifo.closeWrite_buffer id
      ⟨rfl, hends.2⟩ (.refl _) (.refl _) fun ha => False.elim ha⟩
  case leavingIn =>
    cases hstep
    exact ⟨rfl, h.roaming hne rfl rfl rfl rfl rfl rfl Fifo.closeWrite_buffer id
      ⟨rfl, hends.2⟩ (.refl _) (.refl _) fun ha => False.elim ha⟩
  case leavingOut =>
    cases hstep
    exact ⟨rfl, h.roaming hne rfl rfl rfl rfl rfl rfl id
      (fun hnil => (Fifo.closeRead_buffer (.inr hnil)).trans hnil)
      ⟨hends.1, rfl⟩ (.refl _) (.refl _) fun ha => False.elim ha⟩

/-- A turn of the control thread is in time. -/
theorem FifoSys.inTime_server : t.InTime .server := fun h => by cases h

/-- The other order of the closes of the client is in time. -/
theorem FifoSys.inTime_clientOut : t.InTime .clientOut := fun h => by cases h

/-- **A turn**: it is quiet exactly when it is in time, and then the invariant is kept. -/
theorem FifoSys.Serves.step (hfit : ∀ l ∈ cmds, l.Fits) (h : t.Serves rcString s₀ cmds) {turn : Turn}
    (hstep : t.step rcString turn = some (e, t')) :
    (e = .quiet ↔ t.InTime turn) ∧ (t.InTime turn → t'.Serves rcString s₀ cmds) := by
  cases turn with
  | server =>
    obtain ⟨hquiet, hserves⟩ := h.serverStep hfit hstep
    exact ⟨iff_of_true hquiet inTime_server, fun _ => hserves⟩
  | client =>
    have hearly : t.InTime .client ↔ tooEarly t.server t.client = false := imp_iff_right rfl
    rw [hearly]
    exact h.clientStep hstep
  | clientOut =>
    unfold FifoSys.step at hstep
    dsimp only at hstep
    split at hstep
    · rename_i hpc
      have hends := h.client
      rw [hpc] at hends
      cases hstep
      refine ⟨iff_of_true rfl inTime_clientOut, fun _ => ?_⟩
      exact h.roaming (by rw [hpc]; rfl) rfl rfl rfl rfl rfl rfl id
        (fun hnil => (Fifo.closeRead_buffer (.inr hnil)).trans hnil)
        ⟨hends.1, rfl⟩ (.refl _) (.refl _) fun ha => False.elim ha
    · cases hstep

/-! ## Nobody waits for ever

In each state of the invariant one of the two can go on. Each waits for the other at most, in an
`open` or a `read`, and then the other is not waiting. -/

/-- Some turn can be taken, and is in time. -/
def FifoSys.Goes (rcString : RcString σ) (t : FifoSys σ) : Prop :=
  ∃ turn e t', t.InTime turn ∧ t.step rcString turn = some (e, t')

theorem FifoSys.Goes.server (h : t.serverStep rcString ≠ none) : t.Goes rcString := by
  obtain ⟨⟨e, t'⟩, hstep⟩ := Option.ne_none_iff_exists'.mp h
  exact ⟨.server, e, t', inTime_server, hstep⟩

theorem FifoSys.Goes.client (hearly : tooEarly t.server t.client = false) (h : t.clientStep ≠ none) :
    t.Goes rcString := by
  obtain ⟨⟨e, t'⟩, hstep⟩ := Option.ne_none_iff_exists'.mp h
  exact ⟨.client, e, t', fun _ => hearly, hstep⟩

/-- **A client that does not wait for a reply** can go on, unless it is done, or it is in an `open`
    and the control thread does not have that pipe open. -/
theorem FifoSys.Serves.client_goes (h : t.Serves rcString s₀ cmds) (hreads : t.client.reads = false)
    (hfin : ¬ t.Finished) (hearly : tooEarly t.server t.client = false)
    (hin : t.client = .openingIn → t.pipeIn.writer = .opened)
    (hout : t.client = .openingOut → t.pipeOut.reader = .opened) : t.Goes rcString := by
  apply FifoSys.Goes.client hearly
  have hasks := h.asks
  unfold FifoSys.clientStep
  rcases hpc : t.client with - | - | - | - | - | acc | - | - | -
  all_goals dsimp only
  case start =>
    rw [if_neg fun htodo => hfin ⟨hpc, htodo⟩]
    exact Option.some_ne_none _
  case openingIn =>
    rw [if_pos (hin hpc)]
    exact Option.some_ne_none _
  case openingOut =>
    rw [if_pos (hout hpc)]
    exact Option.some_ne_none _
  case writing =>
    rw [hpc] at hasks
    split
    · rename_i htodo
      exact absurd htodo (hasks trivial)
    · cases t.pipeIn.write _ <;> exact Option.some_ne_none _
  case reading =>
    rw [hpc] at hreads
    cases hreads
  all_goals exact Option.some_ne_none _

/-- The command that the control thread took can be executed. -/
theorem FifoSys.Serves.rcString_ne_none (h : t.Serves rcString s₀ cmds)
    (hdef : rcRun rcString (cmds.map Line.toCString) s₀ ≠ none) {array : List UInt8}
    (hpc : t.server = .executing array) : rcString (CString.ofArray array) t.state ≠ none := by
  obtain ⟨ls, rs, hcmds, -, hplace⟩ := h.place
  cases hplace with
  | idle _ _ hserver | sent _ _ _ _ _ _ hserver =>
    rw [hpc] at hserver
    cases hserver
  | executed _ _ _ _ _ _ hserver | replied _ _ _ _ _ _ hserver =>
    rw [hpc] at hserver
    cases hserver
  | taken l rest _ htodo hdone hserver =>
    rw [hpc] at hserver
    cases hserver
    intro hnone
    rw [l.ofArray_ended] at hnone
    rw [hcmds, htodo, List.map_append, List.map_cons, rcRun_append, hdone.run, Option.bind_some,
      rcRun_cons, hnone] at hdef
    exact hdef rfl

/-- **As long as there are commands, some turn can be taken in time.** -/
theorem FifoSys.Serves.goes (h : t.Serves rcString s₀ cmds)
    (hdef : rcRun rcString (cmds.map Line.toCString) s₀ ≠ none) (hfin : ¬ t.Finished) :
    t.Goes rcString := by
  have hsv := h.server
  have hcl := h.client
  rcases hpc : t.server with - | - | - | - | buf | array | reply | - | -
  all_goals
    rw [hpc] at hsv
    have hstep : t.serverStep rcString = t.serverStep rcString := rfl
    conv_rhs at hstep => unfold FifoSys.serverStep; rw [hpc]
    dsimp only at hstep
  case openIn | openOut | closeIn | closeOut =>
    -- these never wait
    apply FifoSys.Goes.server
    rw [hstep]
    exact Option.some_ne_none _
  case writing =>
    -- a write returns too, with EPIPE when there is no reader
    apply FifoSys.Goes.server
    rw [hstep]
    cases t.pipeOut.write reply <;> exact Option.some_ne_none _
  case executing =>
    -- it is defined, as the run over all commands is
    apply FifoSys.Goes.server
    obtain ⟨r, hr⟩ := Option.ne_none_iff_exists'.mp (h.rcString_ne_none hdef hpc)
    rw [hstep, hr]
    exact Option.some_ne_none _
  case openingIn =>
    by_cases hw : t.pipeIn.writer = .closed
    · -- it waits for the client
      rcases hclient : t.client with - | - | - | - | - | acc | - | - | -
      all_goals rw [hclient] at hcl
      case start | leavingOut =>
        refine h.client_goes (by rw [hclient]; rfl) hfin (by rw [hpc, hclient]; rfl) ?_ ?_
        · exact fun h' => by rw [hclient] at h'; cases h'
        · exact fun h' => by rw [hclient] at h'; cases h'
      case openingIn => exact absurd hw hcl.1
      all_goals exact absurd (hw.symm.trans hcl.1) (by decide)
    · -- the client has its end, so the open returns
      apply FifoSys.Goes.server
      rw [hstep, if_pos (Fifo.reader_opened hsv.1 hw)]
      exact Option.some_ne_none _
  case openingOut =>
    -- the same with the ends of the other pipe
    by_cases hr : t.pipeOut.reader = .closed
    · rcases hclient : t.client with - | - | - | - | - | acc | - | - | -
      all_goals rw [hclient] at hcl
      case start | openingIn | openOut | leavingIn =>
        refine h.client_goes (by rw [hclient]; rfl) hfin (by rw [hpc, hclient]; rfl) ?_ ?_
        · intro h'
          rw [hclient] at h'
          cases h'
          all_goals
            have hopen : t.pipeIn.reader ≠ .closed := fun hc => absurd (hc.symm.trans hsv.1) (by decide)
            exact Fifo.writer_opened hopen hcl.1
        · exact fun h' => by rw [hclient] at h'; cases h'
      case openingOut => exact absurd hr hcl.2
      all_goals exact absurd (hr.symm.trans hcl.2) (by decide)
    · apply FifoSys.Goes.server
      rw [hstep, if_pos (Fifo.writer_opened hr hsv.2)]
      exact Option.some_ne_none _
  case reading =>
    -- an end of file, a byte, or nothing yet
    by_cases hnil : t.pipeIn.buffer = []
    · by_cases hw : t.pipeIn.writer = .closed
      · apply FifoSys.Goes.server
        rw [hstep, Fifo.readByte_nil hnil, if_pos hw]
        exact Option.some_ne_none _
      · -- it waits for a line
        have hin : t.pipeIn.reader ≠ .closed := fun hc => absurd (hc.symm.trans hsv.1) (by decide)
        have hout : t.pipeOut.writer ≠ .closed := fun hc => absurd (hc.symm.trans hsv.2) (by decide)
        obtain ⟨ls, rs, -, -, hplace⟩ := h.place
        cases hplace with
        | idle hreads =>
          refine h.client_goes hreads hfin (by rw [hpc]; cases t.client <;> rfl)
            (fun _ => Fifo.writer_opened hin hw) fun hclient => ?_
          rw [hclient] at hcl
          exact Fifo.reader_opened hcl.2 hout
        | sent _ _ _ _ _ _ _ _ hne => exact absurd hnil hne
        | taken _ _ _ _ _ hserver | executed _ _ _ _ _ _ hserver =>
          rw [hpc] at hserver
          cases hserver
        | replied l rest r hclient _ _ _ _ hbuf =>
          have hne : t.pipeOut.buffer ≠ [] := by
            rw [hbuf]
            exact List.append_ne_nil_of_right_ne_nil _ (List.cons_ne_nil _ _)
          obtain ⟨pipe, hread, -⟩ := Fifo.readAll_of_ne hne
          refine FifoSys.Goes.client (by rw [hpc, hclient]; rfl) ?_
          unfold FifoSys.clientStep
          rw [hclient]
          dsimp only
          rw [hread]
          exact Option.some_ne_none _
    · obtain ⟨c, rest, hbuf⟩ := List.exists_cons_of_ne_nil hnil
      obtain ⟨pipe, hread, -⟩ := Fifo.readByte_cons hbuf
      apply FifoSys.Goes.server
      rw [hstep, hread]
      exact Option.some_ne_none _

/-! ## Answers

What the client was promised, read off the invariant at the end of a run. -/

/-- What the client was promised: the commands were executed in order, each once; the replies that it
    read are those to its commands, in order; and it goes on with the next command when it read the
    reply to the one before. -/
structure FifoSys.Answered (t : FifoSys σ) (cmds : List Line) (rs : List ℤ) : Prop where
  executed : t.executed <+: cmds.map Line.toCString
  replies : t.replies <+: rs.map rcReply
  once : t.replies.length ≤ t.executed.length ∧ t.executed.length ≤ t.replies.length + 1
  next : t.replies.length + t.todo.length = cmds.length

theorem FifoSys.Serves.answered (h : t.Serves rcString s₀ cmds) {rs : List ℤ} {s₁ : σ}
    (hrun : rcRun rcString (cmds.map Line.toCString) s₀ = some (rs, s₁)) : t.Answered cmds rs := by
  obtain ⟨ls, rs₀, hcmds, hrs, hplace⟩ := h.place
  have hlen : ∀ {ls rs}, t.Executed rcString s₀ ls rs →
      rs.length = ls.length ∧ t.executed.length = ls.length := by
    intro ls rs hdone
    have hlength := rcRun_length hdone.run
    rw [List.length_map] at hlength
    exact ⟨hlength, by rw [hdone.calls, List.length_map]⟩
  -- the results of the first commands are the first results
  have hpre : ∀ {ls ls' rs₁}, t.Executed rcString s₀ ls rs₁ → cmds = ls ++ ls' →
      t.executed <+: cmds.map Line.toCString ∧ rs₁ <+: rs := by
    intro ls ls' rs₁ hdone hls
    rw [hls, List.map_append, rcRun_append, hdone.run, Option.bind_some] at hrun
    obtain ⟨r, -, he⟩ := Option.map_eq_some_iff.mp hrun
    cases he
    rw [hdone.calls, hls, List.map_append]
    exact ⟨List.prefix_append _ _, List.prefix_append _ _⟩
  -- what is executed is what is answered, or one command more
  have hcases : t.Executed rcString s₀ ls rs₀ ∨
      ∃ l tl r, t.todo = l :: tl ∧ t.Executed rcString s₀ (ls ++ [l]) (rs₀ ++ [r]) := by
    cases hplace with
    | idle _ hdone | sent _ _ _ _ _ hdone | taken _ _ _ _ hdone => exact .inl hdone
    | executed l tl r _ htodo hdone | replied l tl r _ htodo hdone => exact .inr ⟨l, tl, r, htodo, hdone⟩
  have hnext : ls.length + t.todo.length = cmds.length := by rw [hcmds, List.length_append]
  rcases hcases with hdone | ⟨l, tl, r, htodo, hdone⟩
  · obtain ⟨hcalls, hpre⟩ := hpre hdone hcmds
    obtain ⟨hrlen, helen⟩ := hlen hdone
    refine ⟨hcalls, ?_, ?_, ?_⟩
    · rw [hrs]
      exact hpre.map rcReply
    · rw [hrs, List.length_map]
      omega
    · rw [hrs, List.length_map]
      omega
  · have hsplit : cmds = (ls ++ [l]) ++ tl := by
      rw [hcmds, htodo, List.append_assoc]
      rfl
    obtain ⟨hcalls, hpre⟩ := hpre hdone hsplit
    obtain ⟨hrlen, helen⟩ := hlen hdone
    simp only [List.length_append, List.length_singleton] at hrlen helen
    refine ⟨hcalls, ?_, ?_, ?_⟩
    · rw [hrs]
      exact ((List.prefix_append _ _).trans hpre).map rcReply
    · rw [hrs, List.length_map]
      omega
    · rw [hrs, List.length_map]
      omega

/-- At first nobody has a pipe open. -/
theorem FifoSys.serves_start (cmds : List Line) (s₀ : σ) :
    (FifoSys.start cmds s₀).Serves rcString s₀ cmds :=
  ⟨⟨rfl, rfl⟩, ⟨rfl, rfl⟩, fun ha => False.elim ha, [], [], rfl, rfl, .idle rfl ⟨rfl, rfl⟩ rfl rfl rfl⟩

/-- **Exactly when the commands are answered**: when the client never comes back too early.

    The commands have 1 to 511 characters (`hfit`) and each of them is defined where it is executed
    (`hrun`). `turns` is any interleaving of the client and the control thread, as far as it got. On
    the left: nobody ran into an end of file or EPIPE, each command up to now was executed once, in
    order, and answered with its own reply, and the client is done or somebody can go on, so nobody
    waits for ever. On the right: no turn of the client is one that comes before the control thread
    has its pipes closed and opened again (`InTime`). -/
theorem run_raw_cmd_answered_iff (hfit : ∀ l ∈ cmds, l.Fits) {rs : List ℤ} {s₁ : σ}
    (hrun : rcRun rcString (cmds.map Line.toCString) s₀ = some (rs, s₁)) {turns : List Turn}
    {es : List FifoEvent}
    (hturns : Machine.run (FifoSys.step rcString) (FifoSys.start cmds s₀) turns = some (es, t)) :
    (∀ e ∈ es, e = .quiet) ∧ t.Answered cmds rs ∧ (t.Finished ∨ t.Goes rcString) ↔
      Machine.Guarded (FifoSys.step rcString) FifoSys.InTime (FifoSys.start cmds s₀) turns := by
  obtain ⟨hquiet, hserves⟩ := Machine.run_forall_iff_of_run (K := FifoSys.Serves rcString s₀ cmds)
    (fun h hstep => h.step hfit hstep) turns (FifoSys.serves_start cmds s₀) hturns
  constructor
  · exact fun h => hquiet.mp h.1
  · intro hguard
    have h := hserves hguard
    have hdef : rcRun rcString (cmds.map Line.toCString) s₀ ≠ none := by
      rw [hrun]
      exact Option.some_ne_none _
    refine ⟨hquiet.mpr hguard, h.answered hrun, ?_⟩
    exact (em t.Finished).imp_right (h.goes hdef)

/-! ## One command, and one more

The same client, in time and too early. -/

/-- The line of a command. -/
def enableLine : Line := ⟨CString.ofArray (bytes "enable name=a"), by decide⟩

/-- The line of the next one. -/
def disableLine : Line := ⟨CString.ofArray (bytes "disable name=a"), by decide⟩

/-- The turns in which one command is answered, up to the end of the call. -/
def oneCommand : List Turn :=
  [.server, .client, .server, .client, .client, .server, .server, .client, .client] ++
    List.replicate 16 .server ++ [.client, .client, .client]

/-- The client that comes back at once, between the reads of the control thread and its closes. -/
def tooSoon : List Turn := oneCommand ++ [.server, .client, .client, .client, .client, .server, .client]

theorem run_raw_cmd_answered_one : ∃ es t,
    Machine.run (FifoSys.step (fiuRcRun Platform.ieee noSymbols fun _ => 0))
      (FifoSys.start [enableLine] (initialized () 0 0)) oneCommand = some (es, t) ∧
    (∀ e ∈ es, e = .quiet) ∧ t.Answered [enableLine] [0] ∧
      (t.Finished ∨ t.Goes (fiuRcRun Platform.ieee noSymbols fun _ => 0)) := by
  obtain ⟨⟨es, t⟩, hturns⟩ := Option.isSome_iff_exists.mp (show (Machine.run
    (FifoSys.step (fiuRcRun Platform.ieee noSymbols fun _ => 0))
      (FifoSys.start [enableLine] (initialized () 0 0)) oneCommand).isSome by decide +kernel)
  have hrun : (rcRun (fiuRcRun Platform.ieee noSymbols fun _ => 0) [enableLine.toCString]
    (initialized () 0 0)).map Prod.fst = some [0] := by decide +kernel
  obtain ⟨⟨rs, s₁⟩, hrun, rfl⟩ := Option.map_eq_some_iff.mp hrun
  refine ⟨es, t, hturns, (run_raw_cmd_answered_iff ?_ hrun hturns).mpr ?_⟩
  · intro l hl
    rw [List.mem_singleton.mp hl]
    exact ⟨by decide, by decide⟩
  · decide +kernel

/-- Not every client is answered: its second command comes when nobody can read it. -/
theorem run_raw_cmd_epipe :
    ¬ ∀ (turns : List Turn) (es : List FifoEvent) (t : FifoSys (Fiu Unit)),
      Machine.run (FifoSys.step (fiuRcRun Platform.ieee noSymbols fun _ => 0))
        (FifoSys.start [enableLine, disableLine] (initialized () 0 0)) turns = some (es, t) →
      (∀ e ∈ es, e = .quiet) ∧ t.Answered [enableLine, disableLine] [0, 0] := by
  intro h
  have hrun : (Machine.run (FifoSys.step (fiuRcRun Platform.ieee noSymbols fun _ => 0))
      (FifoSys.start [enableLine, disableLine] (initialized () 0 0)) tooSoon).map
        (fun r => (r.1.getLast?, r.2.executed, r.2.replies))
      = some (some .clientEpipe, [enableLine.toCString], [rcReply 0]) := by decide +kernel
  obtain ⟨⟨es, t⟩, hturns, he⟩ := Option.map_eq_some_iff.mp hrun
  have hlast : es.getLast? = some .clientEpipe := congrArg Prod.fst he
  have hquiet := (h tooSoon es t hturns).1 .clientEpipe (List.mem_of_getLast? hlast)
  exact absurd hquiet (by decide)

end Libfiu
