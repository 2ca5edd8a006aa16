/-
  What `parse_module` of preload/posix/generate makes of the text of a module.

  1. **Lines** (`logicalLines_text`) — a line may be broken behind a backslash anywhere.

  2. **Layout** (`parseLines_significant`) — lines that are blank, and comments, change nothing else,
     wherever they are, in the middle of a function as well.

  3. **Items** — a module consists of `Item`s, and `moduleDirectives` says what they mean: the functions
     of each entry under the base of the names that was given last, between the lines for the compiler
     that are around it.  `parse_module_reads` is that the parser finds just that in every text that is
     written like this, or the error in it.

  The proof goes inwards and comes out again. The lines of a text are found first, then those
  without meaning are left out, and then one line of each kind is read; a declaration is the hardest
  of them and has a module of its own (`PosixDeclaration`). What remains is an induction over the
  items, in which the loop is between two items, or inside of a function whose lines are not over.
-/
import Libfiu.PosixDeclaration
import Libfiu.Lib.Errors

namespace Libfiu

namespace Posix

open Errors

/-! ## Lines

A line of a module may be broken anywhere with a backslash at the end. Put together again it is the
same line, so from here on a module is a list of lines. -/

/-- A line of a module, as it is broken into lines of the text. -/
def brokenLine : List (List Char) → List Char
  | [] => ['\n']
  | [chunk] => chunk ++ ['\n']
  | chunk :: chunks => chunk ++ '\\' :: '\n' :: brokenLine chunks

/-- A line can be written down like this: no chunk has an end of line, and the last one of them does not
    end in a backslash. -/
structure Breaks (chunks : List (List Char)) : Prop where
  line : ∀ chunk ∈ chunks, '\n' ∉ chunk
  ends : chunks.flatten.getLast? ≠ some '\\'

/-- A line of the text. -/
theorem readlines_line {l : List Char} (hl : '\n' ∉ l) (text : List Char) :
    readlines (l ++ '\n' :: text) = (l ++ ['\n']) :: readlines text := by
  induction l with
  | nil => rfl
  | cons c l ih =>
    have hc : c ≠ '\n' := fun h => hl (by rw [h]; exact List.mem_cons_self ..)
    rw [List.cons_append, readlines, if_neg hc, ih fun h => hl (List.mem_cons_of_mem _ h)]
    rfl

/-- A backslash at the end of a line: it goes on. -/
theorem continued_some (l : List Char) : continued (l ++ ['\\', '\n']) = some l := by
  rw [continued, if_pos (List.suffix_append ..), List.length_append]
  show some ((l ++ ['\\', '\n']).take (l.length + 2 - 2)) = some l
  rw [Nat.add_sub_cancel, List.take_left]

/-- None: it is complete. -/
theorem continued_none {l : List Char} (hl : l.getLast? ≠ some '\\') :
    continued (l ++ ['\n']) = none := by
  rw [continued, if_neg]
  rintro ⟨s, hs⟩
  have hsplit : (s ++ ['\\']) ++ ['\n'] = l ++ ['\n'] := by
    rw [← hs, List.append_assoc]
    rfl
  obtain ⟨rfl, -⟩ := List.append_inj' hsplit rfl
  exact hl List.getLast?_concat

/-- A line that is complete. -/
theorem logicalLines_done {unfinished : Option (List Char)} {nl : List Char}
    (h : continued (unfinished.getD [] ++ nl) = none) (lines : List (List Char)) :
    logicalLines unfinished (nl :: lines)
      = (unfinished.getD [] ++ nl) :: logicalLines none lines := by
  rcases unfinished with _ | l <;> rw [logicalLines, h]

/-- A line that goes on in the next one. -/
theorem logicalLines_more {unfinished : Option (List Char)} {nl l : List Char}
    (h : continued (unfinished.getD [] ++ nl) = some l) (lines : List (List Char)) :
    logicalLines unfinished (nl :: lines) = logicalLines (some l) lines := by
  rcases unfinished with _ | l' <;> rw [logicalLines, h]

/-- **A line is put together again**, behind what is there of it. By induction on the pieces of the
    line. -/
theorem logicalLines_brokenLine (text : List Char) :
    ∀ (chunks : List (List Char)) (unfinished : Option (List Char)),
      (∀ chunk ∈ chunks, '\n' ∉ chunk) →
      (unfinished.getD [] ++ chunks.flatten).getLast? ≠ some '\\' →
      logicalLines unfinished (readlines (brokenLine chunks ++ text))
        = (unfinished.getD [] ++ chunks.flatten ++ ['\n']) :: logicalLines none (readlines text) := by
  intro chunks
  induction chunks with
  | nil =>
    intro unfinished _ hends
    rw [List.flatten_nil, List.append_nil] at hends ⊢
    exact logicalLines_done (continued_none hends) _
  | cons chunk chunks ih =>
    intro unfinished hline hends
    have hchunk := hline chunk (List.mem_cons_self ..)
    rcases chunks with _ | ⟨next, chunks⟩
    · -- the last line
      have hread : readlines (brokenLine [chunk] ++ text) = (chunk ++ ['\n']) :: readlines text := by
        rw [brokenLine, List.append_assoc]
        exact readlines_line hchunk text
      rw [List.flatten_cons, List.flatten_nil, List.append_nil] at hends ⊢
      rw [hread, List.append_assoc]
      refine logicalLines_done ?_ _
      rw [← List.append_assoc]
      exact continued_none hends
    · -- a line that goes on
      have hbackslash : '\n' ∉ chunk ++ ['\\'] := by
        rw [List.mem_append, List.mem_singleton]
        rintro (h | h)
        · exact hchunk h
        · exact absurd h (by decide)
      have hread : readlines (brokenLine (chunk :: next :: chunks) ++ text)
          = (chunk ++ ['\\', '\n']) :: readlines (brokenLine (next :: chunks) ++ text) := by
        have hl := readlines_line hbackslash (brokenLine (next :: chunks) ++ text)
        rw [List.append_assoc, List.append_assoc] at hl
        rw [brokenLine, List.append_assoc]
        · exact hl
        · exact List.cons_ne_nil _ _
      have hcontinued : continued (unfinished.getD [] ++ (chunk ++ ['\\', '\n']))
          = some (unfinished.getD [] ++ chunk) := by
        rw [← List.append_assoc]
        exact continued_some _
      rw [List.flatten_cons, ← List.append_assoc] at hends ⊢
      rw [hread, logicalLines_more hcontinued]
      exact ih (some (unfinished.getD [] ++ chunk)) (fun c hc => hline c (List.mem_cons_of_mem _ hc))
        hends

/-- The text of a module, line by line. -/
def moduleText (lines : List (List (List Char))) : List Char := lines.flatMap brokenLine

/-- **The loop gets the lines**, however they are broken. -/
theorem logicalLines_text {lines : List (List (List Char))} (h : ∀ chunks ∈ lines, Breaks chunks) :
    logicalLines none (readlines (moduleText lines))
      = lines.map fun chunks => chunks.flatten ++ ['\n'] := by
  induction lines with
  | nil => rfl
  | cons chunks lines ih =>
    have hbreaks := h chunks (List.mem_cons_self ..)
    rw [moduleText, List.flatMap_cons, List.map_cons]
    rw [logicalLines_brokenLine _ chunks none hbreaks.line hbreaks.ends]
    exact congrArg _ (ih fun c hc => h c (List.mem_cons_of_mem _ hc))

/-! ## Layout

Blank lines and comments make directives of their own, which nothing else depends on. Two states of
the parser that differ in them alone behave alike.

What the loop remembers between two lines is the function it is in and the base of the names; blank
lines and comments touch neither. -/

/-- The line is neither blank nor a comment. -/
def significant (l : List Char) : Bool := strip l ≠ [] ∧ (strip l).head? ≠ some '#'

/-- The directive is neither an empty line nor a comment. -/
def Directive.significant : Directive → Bool
  | .emptyLine | .comment _ => false
  | _ => true

/-- The directives without empty lines and comments. -/
def significantDirectives (r : Except String (List Directive)) : Except String (List Directive) :=
  r.map (List.filter Directive.significant)

/-- The same state, up to empty lines and comments. -/
structure ParseState.Same (s t : ParseState) : Prop where
  directives : s.directives.filter Directive.significant = t.directives.filter Directive.significant
  fiuNameBase : s.fiuNameBase = t.fiuNameBase
  currentFunc : s.currentFunc = t.currentFunc

/-- Both are the same error, or related results. -/
inductive SameResult {α : Type} (R : α → α → Prop) : Except String α → Except String α → Prop
  | error (e : String) : SameResult R (.error e) (.error e)
  | ok {a b : α} (h : R a b) : SameResult R (.ok a) (.ok b)

/-- One after the other. -/
theorem SameResult.bind {α β : Type} {R : α → α → Prop} {R' : β → β → Prop} {x y : Except String α}
    {f g : α → Except String β} (h : SameResult R x y) (hf : ∀ a b, R a b → SameResult R' (f a) (g b)) :
    SameResult R' (x >>= f) (y >>= g) := by
  rcases h with e | h
  · exact .error e
  · exact hf _ _ h

/-- The same computation twice. -/
theorem SameResult.refl {α : Type} {R : α → α → Prop} (hR : ∀ a, R a a) (x : Except String α) :
    SameResult R x x := by
  rcases x with e | a
  · exact .error e
  · exact .ok (hR a)

theorem SameResult.map_eq {α β : Type} {f : α → β} {x y : Except String α}
    (h : SameResult (fun a b => f a = f b) x y) : x.map f = y.map f := by
  rcases h with e | h
  · rfl
  · exact congrArg Except.ok h

/-- More directives. -/
theorem ParseState.Same.append {s t : ParseState} (h : s.Same t) (ds : List Directive) :
    ParseState.Same { s with directives := s.directives ++ ds }
      { t with directives := t.directives ++ ds } where
  directives := by rw [List.filter_append, List.filter_append, h.directives]
  fiuNameBase := h.fiuNameBase
  currentFunc := h.currentFunc

/-- Another function. -/
theorem ParseState.Same.enter {s t : ParseState} (h : s.Same t) (f : Option ParsedFunction) :
    ParseState.Same { s with currentFunc := f } { t with currentFunc := f } :=
  ⟨h.directives, h.fiuNameBase, rfl⟩

/-- The function that is done is the same. -/
theorem ParseState.Same.flush {s t : ParseState} (h : s.Same t) :
    SameResult ParseState.Same s.flush t.flush := by
  unfold ParseState.flush
  rw [← h.currentFunc]
  rcases s.currentFunc with _ | f
  · exact .ok h
  · refine (SameResult.refl (fun ds => rfl) f.variantDirectives).bind fun ds ds' hds => ?_
    obtain rfl : ds = ds' := hds
    exact .ok ((h.append ds).enter none)

/-- A directive does the same to both. -/
theorem ParseState.Same.directive {s t : ParseState} (h : s.Same t) (line : List Char) :
    SameResult ParseState.Same (s.directive line) (t.directive line) := by
  unfold ParseState.directive
  dsimp only
  split
  · exact .ok ⟨h.directives, rfl, h.currentFunc⟩
  · split
    · exact .ok (h.append _)
    · split
      · exact .ok (h.append _)
      · exact .error _

/-- A line does the same to both. -/
theorem ParseState.Same.step {s t : ParseState} (h : s.Same t) (l : List Char) :
    SameResult ParseState.Same (s.step l) (t.step l) := by
  unfold ParseState.step
  split
  · exact .ok (h.append _)
  · split
    · exact .ok (h.append _)
    · split
      · refine h.flush.bind fun s t h => ?_
        split
        · exact h.directive _
        · rw [← h.fiuNameBase]
          refine (SameResult.refl (fun f => rfl) _).bind fun f f' hf => ?_
          obtain rfl : f = f' := hf
          exact .ok ⟨h.directives, rfl, rfl⟩
      · rw [← h.currentFunc]
        rcases s.currentFunc with _ | f
        · exact .error _
        · refine (SameResult.refl (fun f => rfl) _).bind fun f f' hf => ?_
          obtain rfl : f = f' := hf
          exact .ok (h.enter (some f))

/-- A line that is blank or a comment changes nothing else. -/
theorem ParseState.Same.skip {s t : ParseState} (h : s.Same t) {l : List Char}
    (hl : Posix.significant l = false) : ∃ s', s.step l = .ok s' ∧ s'.Same t := by
  have hmore : ∀ d : Directive, d.significant = false →
      ParseState.Same { s with directives := s.directives ++ [d] } t := by
    intro d hd
    refine ⟨?_, h.fiuNameBase, h.currentFunc⟩
    rw [List.filter_append, List.filter_cons_of_neg (by rw [hd]; simp), List.filter_nil,
      List.append_nil, h.directives]
  unfold ParseState.step
  by_cases hblank : strip l = []
  · rw [if_pos hblank]
    exact ⟨_, rfl, hmore _ rfl⟩
  · rw [if_neg hblank]
    have hcomment : (strip l).head? = some '#' := by
      by_contra hno
      rw [Posix.significant, decide_eq_false_iff_not] at hl
      exact hl ⟨hblank, hno⟩
    rw [if_pos hcomment]
    exact ⟨_, rfl, hmore _ rfl⟩

/-- All lines, and those that are neither blank nor comments. -/
theorem ParseState.Same.foldlM {lines : List (List Char)} :
    ∀ {s t : ParseState}, s.Same t →
      SameResult ParseState.Same (lines.foldlM ParseState.step s)
        ((lines.filter Posix.significant).foldlM ParseState.step t) := by
  induction lines with
  | nil => exact fun h => .ok h
  | cons l lines ih =>
    intro s t h
    rw [List.foldlM_cons]
    rcases hl : Posix.significant l with _ | _
    · obtain ⟨s', hs, hsame⟩ := h.skip hl
      rw [hs, List.filter_cons_of_neg (by rw [hl]; simp)]
      exact ih hsame
    · rw [List.filter_cons_of_pos hl, List.foldlM_cons]
      exact (h.step l).bind fun _ _ h => ih h

/-- **Blank lines and comments change nothing else**, wherever they are, whether the rest is right or
    not. -/
theorem parseLines_significant (s : ParseState) (lines : List (List Char)) :
    significantDirectives (parseLines s lines)
      = significantDirectives (parseLines s (lines.filter significant)) := by
  have hsame : s.Same s := ⟨rfl, rfl, rfl⟩
  refine SameResult.map_eq ?_
  exact hsame.foldlM.bind fun s t h => h.flush.bind fun s t h => .ok h.directives

/-! ## White space around a text

What is stripped is put around a text that has none at its ends; then it is found again. -/

/-- There is no white space around the text. -/
def trimmed (s : List Char) : Bool :=
  s.head?.all (fun c => ! isSpace c) && s.getLast?.all fun c => ! isSpace c

/-- The first character is no white space. -/
theorem trimmed_head {s : List Char} (h : trimmed s = true) {c : Char} (hc : s.head? = some c) :
    isSpace c = false := by
  rw [trimmed, hc, Bool.and_eq_true] at h
  simpa using h.1

/-- The last character is no white space. -/
theorem trimmed_last {s : List Char} (h : trimmed s = true) {c : Char} (hc : s.getLast? = some c) :
    isSpace c = false := by
  rw [trimmed, hc, Bool.and_eq_true] at h
  simpa using h.2

/-- **White space is taken away from both ends.** -/
theorem strip_pad {a t b : List Char} (ha : ∀ c ∈ a, isSpace c = true)
    (hb : ∀ c ∈ b, isSpace c = true) (ht : trimmed t = true) : strip (a ++ (t ++ b)) = t := by
  rw [strip, stripOf, List.dropWhile_append_of_pos ha]
  rcases ht' : t with _ | ⟨c, t'⟩
  · rw [List.nil_append, List.dropWhile_eq_nil_iff.mpr hb]
    rfl
  · have hc : isSpace c = false := trimmed_head ht (by rw [ht']; rfl)
    rw [List.cons_append, List.dropWhile_cons_of_neg (by rw [hc]; simp), ← List.cons_append, ← ht',
      List.rdropWhile, List.reverse_append,
      List.dropWhile_append_of_pos fun d hd => hb d (List.mem_reverse.mp hd)]
    -- what is left ends in the last character of `t`
    rcases hr : t.reverse with _ | ⟨d, r⟩
    · rw [List.reverse_eq_nil_iff] at hr
      rw [hr]
      rfl
    · have hlast : t.getLast? = some d := by rw [← List.head?_reverse, hr, List.head?_cons]
      rw [List.dropWhile_cons_of_neg (by rw [trimmed_last ht hlast]; simp), ← hr, List.reverse_reverse]

/-- There is nothing to be taken away. -/
theorem strip_trimmed {t : List Char} (ht : trimmed t = true) : strip t = t := by
  have h := strip_pad (a := []) (b := []) (fun c hc => by cases hc) (fun c hc => by cases hc) ht
  rwa [List.nil_append, List.append_nil] at h

/-- The end of the line is white space. -/
theorem strip_newline (l : List Char) : strip (l ++ ['\n']) = strip l := by
  have hspace : isSpace '\n' = true := by decide
  rw [strip, stripOf, stripOf, List.dropWhile_append]
  split
  · rename_i hempty
    rw [List.isEmpty_iff.mp hempty, List.dropWhile_cons_of_pos hspace]
    rfl
  · rw [List.rdropWhile_concat_pos _ _ _ hspace]

/-- The end of a line does not make it significant. -/
theorem significant_newline (l : List Char) : significant (l ++ ['\n']) = significant l := by
  rw [significant, significant, strip_newline]

/-! ## Items

A module as it is meant: a list of items, with the directives that they stand for. This is the
specification, and it has no lines, no blanks and no order of errors but that of the items. -/

/-- A key of a directive. -/
structure Key where
  chars : List Char
  ne : chars ≠ []
  trimmed : trimmed chars = true
  noColon : ':' ∉ chars
  noHash : chars.head? ≠ some '#'

/-- A value. -/
structure Value where
  chars : List Char
  trimmed : trimmed chars = true

/-- `k: v` -/
def keyed (k v : List Char) : List Char := k ++ ':' :: ' ' :: v

/-- A line about a function. -/
structure Info where
  indent : Char
  indent_eq : indent = ' ' ∨ indent = '\t'
  more : Blanks
  key : Key
  value : Value

/-- The line, indented. -/
def Info.text (i : Info) : List Char := i.indent :: (i.more.chars ++ keyed i.key.chars i.value.chars)

/-- What a module consists of. -/
inductive Item where
  | base (v : Value)
  | includeFile (v : Value)
  | verbatim (v : Value)
  | entry (d : Declaration) (infos : List Info)

/-- The lines of an item. -/
def Item.lines : Item → List (List Char)
  | .base v => [keyed "fiu name base".toList v.chars]
  | .includeFile v => [keyed "include".toList v.chars]
  | .verbatim v => [keyed "v".toList v.chars]
  | .entry d infos => d.text :: infos.map Info.text

/-- The function that is declared. -/
def Declaration.function (d : Declaration) (base : String) : ParsedFunction :=
  ParsedFunction.init (String.ofList d.retType.text) (String.ofList d.name.chars)
    (paramStrings (d.params.map Param.info)) base

/-- The base that a module gives. -/
def Value.base (v : Value) : String := String.ofList (stripOf (· == '/') v.chars)

/-- The directives about a function. -/
def Declaration.load (d : Declaration) (infos : List Info) (base : String) :
    Except String ParsedFunction :=
  infos.foldlM (fun f i => f.loadInfo (String.ofList i.key.chars) (String.ofList i.value.chars))
    (d.function base)

/-- **What a module means**, under the base of the names. -/
def moduleDirectives : String → List Item → Except String (List Directive)
  | _, [] => .ok []
  | _, .base v :: items => moduleDirectives v.base items
  | base, .includeFile v :: items => do return .includeFile v.chars :: (← moduleDirectives base items)
  | base, .verbatim v :: items => do return .verbatim v.chars :: (← moduleDirectives base items)
  | base, .entry d infos :: items => do
    let f ← d.load infos base
    let ds ← f.variantDirectives
    return ds ++ (← moduleDirectives base items)

/-! ## One line of an item

Each kind of line is read back as the item that it was written for. -/

/-- A line `k: v`, with white space around it. -/
theorem strip_keyed {a : List Char} (ha : ∀ c ∈ a, isSpace c = true) {k v : List Char} (hne : k ≠ [])
    (hk : trimmed k = true) (hv : trimmed v = true) :
    strip (a ++ (keyed k v ++ ['\n'])) = k ++ ':' :: (if v = [] then [] else ' ' :: v) := by
  have hhead : ∀ s, (k ++ s).head? = k.head? := by
    rcases k with _ | ⟨c, k⟩
    · exact absurd rfl hne
    · exact fun s => rfl
  have hcolon : isSpace ':' = false := by decide
  by_cases hnil : v = []
  · have hsplit : keyed k v ++ ['\n'] = (k ++ [':']) ++ [' ', '\n'] := by
      rw [keyed, hnil, List.append_assoc, List.append_assoc]
      rfl
    rw [if_pos hnil, hsplit]
    refine strip_pad ha (by simp [isSpace, spaceCodes]) ?_
    rw [trimmed, Bool.and_eq_true, hhead, List.getLast?_concat]
    rw [trimmed, Bool.and_eq_true] at hk
    exact ⟨hk.1, by simp [hcolon]⟩
  · have hsplit : keyed k v = k ++ ':' :: (if v = [] then [] else ' ' :: v) := by
      rw [if_neg hnil, keyed]
    rw [hsplit]
    refine strip_pad ha (by simp [isSpace, spaceCodes]) ?_
    have hlast : (k ++ ':' :: (if v = [] then [] else ' ' :: v)).getLast? = v.getLast? := by
      rw [if_neg hnil]
      rcases List.eq_nil_or_concat' v with h | ⟨w, c, rfl⟩
      · exact absurd h hnil
      · rw [List.getLast?_concat]
        have hassoc : k ++ ':' :: ' ' :: (w ++ [c]) = (k ++ ':' :: ' ' :: w) ++ [c] := by simp
        rw [hassoc, List.getLast?_concat]
    rw [trimmed, Bool.and_eq_true, hhead, hlast]
    rw [trimmed, Bool.and_eq_true] at hk hv
    exact ⟨hk.1, hv.2⟩

/-- The key and the value are found again. -/
theorem splitColon_keyed {k v : List Char} (hk : trimmed k = true) (hno : ':' ∉ k)
    (hv : trimmed v = true) :
    splitColon (k ++ ':' :: (if v = [] then [] else ' ' :: v)) = (k, v) := by
  have hkeep : ∀ c ∈ k, (decide (c ≠ ':')) = true := by
    intro c hc
    rw [decide_eq_true_eq]
    rintro rfl
    exact hno hc
  rw [splitColon, List.takeWhile_append_of_pos hkeep, List.dropWhile_append_of_pos hkeep,
    List.takeWhile_cons_of_neg (by simp), List.dropWhile_cons_of_neg (by simp), List.append_nil,
    List.drop_one, List.tail_cons, strip_trimmed hk]
  split
  · rename_i hnil
    rw [hnil]
    rfl
  · have h := strip_pad (a := [' ']) (b := []) (by simp [isSpace, spaceCodes]) (fun c hc => by cases hc) hv
    rw [List.append_nil] at h
    exact congrArg (Prod.mk k) h

/-- The key stands in front. -/
theorem keyed_head {k : List Char} (hne : k ≠ []) (s : List Char) : (k ++ s).head? = k.head? := by
  rcases k with _ | ⟨c, k⟩
  · exact absurd rfl hne
  · rfl

/-- A line of the parser, and then the others. -/
theorem parseLines_cons (s : ParseState) (l : List Char) (lines : List (List Char)) :
    parseLines s (l :: lines) = s.step l >>= fun s => parseLines s lines := by
  rw [parseLines, List.foldlM_cons]
  rcases s.step l with e | s'
  · rfl
  · rfl

theorem ParseState.flush_none {s s' : ParseState} (h : s.flush = .ok s') : s'.currentFunc = none := by
  unfold ParseState.flush at h
  rcases hf : s.currentFunc with _ | f
  · rw [hf] at h
    cases h
    exact hf
  · rw [hf] at h
    obtain ⟨ds, -, h⟩ := bind_ok h
    cases h
    rfl

theorem ParseState.flush_of_none {s : ParseState} (h : s.currentFunc = none) : s.flush = .ok s := by
  rw [ParseState.flush, h]

/-- A directive of a module. -/
theorem step_keyed (s : ParseState) {k v : List Char} (hne : k ≠ []) (hk : trimmed k = true)
    (hhash : k.head? ≠ some '#') (hv : trimmed v = true) :
    s.step (keyed k v ++ ['\n']) = s.flush >>= fun s =>
      s.directive (k ++ ':' :: (if v = [] then [] else ' ' :: v)) := by
  have hstrip : strip (keyed k v ++ ['\n']) = k ++ ':' :: (if v = [] then [] else ' ' :: v) :=
    strip_keyed (a := []) (fun c hc => by cases hc) hne hk hv
  have hspace : ∀ c, (keyed k v ++ ['\n']).head? = some c → isSpace c = false := by
    intro c hc
    rw [keyed, List.append_assoc, keyed_head hne] at hc
    exact trimmed_head hk hc
  have hhead : (keyed k v ++ ['\n']).head? ≠ some ' ' ∧ (keyed k v ++ ['\n']).head? ≠ some '\t' :=
    ⟨fun h => absurd (hspace _ h) (by decide), fun h => absurd (hspace _ h) (by decide)⟩
  unfold ParseState.step
  rw [hstrip, if_neg (by simp), keyed_head hne, if_neg hhash, if_pos hhead]
  refine congrArg _ (funext fun s' => ?_)
  rw [if_pos (by simp)]

/-- A line about the current function. -/
theorem step_info (s : ParseState) {f : ParsedFunction} (hf : s.currentFunc = some f) (i : Info) :
    s.step (i.text ++ ['\n'])
      = f.loadInfo (String.ofList i.key.chars) (String.ofList i.value.chars) >>= fun f =>
        .ok { s with currentFunc := some f } := by
  have hindent : ∀ c ∈ i.indent :: i.more.chars, isSpace c = true := by
    intro c hc
    rcases List.mem_cons.mp hc with rfl | hc
    · rcases i.indent_eq with h | h <;> rw [h] <;> decide
    · exact i.more.space c hc
  have hstrip : strip (i.text ++ ['\n'])
      = i.key.chars ++ ':' :: (if i.value.chars = [] then [] else ' ' :: i.value.chars) := by
    have htext : i.text ++ ['\n']
        = (i.indent :: i.more.chars) ++ (keyed i.key.chars i.value.chars ++ ['\n']) := by
      simp [Info.text]
    rw [htext]
    exact strip_keyed hindent i.key.ne i.key.trimmed i.value.trimmed
  have hhead : ¬ ((i.text ++ ['\n']).head? ≠ some ' ' ∧ (i.text ++ ['\n']).head? ≠ some '\t') := by
    rintro ⟨h₁, h₂⟩
    rcases i.indent_eq with h | h
    · exact h₁ (congrArg some h)
    · exact h₂ (congrArg some h)
  unfold ParseState.step
  rw [hstrip, if_neg (by simp), keyed_head i.key.ne, if_neg i.key.noHash, if_neg hhead, hf]
  show (f.loadInfoLine _ >>= fun f => _) = _
  rw [ParsedFunction.loadInfoLine, if_pos (by simp),
    splitColon_keyed i.key.trimmed i.key.noColon i.value.trimmed]
  rfl

/-! ## A declaration

The line of a declaration has no colon, and is not indented; that is how the loop knows it. -/

/-- A declaration starts with a letter. -/
theorem Declaration.text_starts (d : Declaration) : StartsWord d.text :=
  pieces_starts d.retType.pieces (d.name.starts _)

/-- A declaration has no white space around it. -/
theorem Declaration.text_trimmed (d : Declaration) : trimmed d.text = true := by
  obtain ⟨c, s, htext, hc⟩ := d.text_starts
  have hlast : d.text.getLast? = some ';' := by
    have hconcat : d.text
        = (d.retType.text ++ (d.name.chars ++ '(' :: (paramsText d.params ++ [')']))) ++ [';'] := by
      simp [Declaration.text]
    rw [hconcat, List.getLast?_concat]
  rw [trimmed, hlast, htext, List.head?_cons, Bool.and_eq_true]
  exact ⟨by simp [isWordStar_not_space (isWord_wordStar hc)], by decide⟩

/-- A declaration has no colon in it. -/
theorem Declaration.noColon (d : Declaration) : ':' ∉ d.text := by
  intro hmem
  have hcolon : isWordStar ':' = false ∧ isSpace ':' = false := by decide
  rcases List.mem_append.mp hmem with ht | hmem
  · rcases CType.text_mem ht with h | h
    · rw [hcolon.1] at h
      cases h
    · rw [hcolon.2] at h
      cases h.1
  rcases List.mem_append.mp hmem with hn | hmem
  · have h := isWord_wordStar (d.name.word _ hn)
    rw [hcolon.1] at h
    cases h
  rcases List.mem_cons.mp hmem with h | hmem
  · exact absurd h (by decide)
  rcases List.mem_append.mp hmem with hp | h
  · exact paramsText_ne hp (d := ':') (by simp) rfl
  · exact absurd h (by decide)

/-- It is read as the function that it declares. -/
theorem Declaration.ofDefinition (d : Declaration) (base : String) :
    ParsedFunction.ofDefinition d.text base = .ok (d.function base) := by
  rw [ParsedFunction.ofDefinition, loadFromDefinition_text]
  rfl

/-- A declaration: the function that it follows is done. -/
theorem step_declaration (s : ParseState) (d : Declaration) :
    s.step (d.text ++ ['\n']) = s.flush >>= fun s =>
      .ok { s with currentFunc := some (d.function s.fiuNameBase) } := by
  have hstrip : strip (d.text ++ ['\n']) = d.text :=
    strip_pad (a := []) (fun c hc => by cases hc) (by simp [isSpace, spaceCodes]) d.text_trimmed
  obtain ⟨c, rest, htext, hc⟩ := d.text_starts
  have hne : ∀ e, isWord e = false → (d.text ++ ['\n']).head? ≠ some e := by
    intro e he h
    rw [htext] at h
    obtain rfl : c = e := Option.some.inj h
    rw [hc] at he
    cases he
  have hhash : d.text.head? ≠ some '#' := by
    rw [htext]
    intro h
    obtain rfl : c = '#' := Option.some.inj h
    exact absurd hc (by decide)
  unfold ParseState.step
  rw [hstrip, if_neg (by rw [htext]; simp), if_neg hhash,
    if_pos ⟨hne ' ' (by decide), hne '\t' (by decide)⟩]
  refine congrArg _ (funext fun s' => ?_)
  rw [if_neg d.noColon, d.ofDefinition]
  rfl

/-! ## A module

The items are done one after another. The induction is on their list, from any state of the parser. -/

/-- A base of the names. -/
theorem step_base (s : ParseState) (v : Value) :
    s.step (keyed "fiu name base".toList v.chars ++ ['\n']) = s.flush >>= fun s =>
      .ok { s with fiuNameBase := v.base } := by
  rw [step_keyed s (by decide) (by decide) (by decide) v.trimmed]
  refine congrArg _ (funext fun s' => ?_)
  rw [ParseState.directive, splitColon_keyed (by decide) (by decide) v.trimmed]
  show Except.ok _ = Except.ok _
  rw [strip_trimmed v.trimmed]
  rfl

/-- A line with an include. -/
theorem step_includeFile (s : ParseState) (v : Value) :
    s.step (keyed "include".toList v.chars ++ ['\n']) = s.flush >>= fun s =>
      .ok { s with directives := s.directives ++ [.includeFile v.chars] } := by
  rw [step_keyed s (by decide) (by decide) (by decide) v.trimmed]
  refine congrArg _ (funext fun s' => ?_)
  rw [ParseState.directive, splitColon_keyed (by decide) (by decide) v.trimmed]
  rfl

/-- A line that is copied. -/
theorem step_verbatim (s : ParseState) (v : Value) :
    s.step (keyed "v".toList v.chars ++ ['\n']) = s.flush >>= fun s =>
      .ok { s with directives := s.directives ++ [.verbatim v.chars] } := by
  rw [step_keyed s (by decide) (by decide) (by decide) v.trimmed]
  refine congrArg _ (funext fun s' => ?_)
  rw [ParseState.directive, splitColon_keyed (by decide) (by decide) v.trimmed]
  rfl

/-- The lines about a function, and then the others. -/
theorem parseLines_infos (infos : List Info) (rest : List (List Char)) :
    ∀ (s : ParseState) (f : ParsedFunction), s.currentFunc = some f →
      parseLines s ((infos.map fun i => i.text ++ ['\n']) ++ rest)
        = (infos.foldlM (fun f i => f.loadInfo (String.ofList i.key.chars)
            (String.ofList i.value.chars)) f) >>= fun f =>
          parseLines { s with currentFunc := some f } rest := by
  induction infos with
  | nil =>
    intro s f hf
    have hs : { s with currentFunc := some f } = s := by rw [← hf]
    rw [List.map_nil, List.nil_append, List.foldlM_nil]
    show _ = parseLines { s with currentFunc := some f } rest
    rw [hs]
  | cons i infos ih =>
    intro s f hf
    rw [List.map_cons, List.cons_append, parseLines_cons, step_info s hf, List.foldlM_cons]
    rcases f.loadInfo (String.ofList i.key.chars) (String.ofList i.value.chars) with e | f'
    · rfl
    · exact ih { s with currentFunc := some f' } f' rfl

/-- **The items of a module**, from any state of the parser. By induction on the items: what is left
    open of one of them is closed by the next one, or by the end. -/
theorem parseLines_items (items : List Item) :
    ∀ s : ParseState, parseLines s ((items.flatMap Item.lines).map (· ++ ['\n']))
      = s.flush >>= fun s => do
        let ds ← moduleDirectives s.fiuNameBase items
        return s.directives ++ ds := by
  induction items with
  | nil =>
    intro s
    show s.flush >>= (fun s => Except.ok s.directives) = _
    refine congrArg _ (funext fun s' => ?_)
    show Except.ok s'.directives = Except.ok (s'.directives ++ [])
    rw [List.append_nil]
  | cons item items ih =>
    -- a line that changes the state after the flush to `g` of it
    have hone : ∀ (s : ParseState) (l : List Char) (g : ParseState → ParseState),
        s.step (l ++ ['\n']) = s.flush >>= (fun s => .ok (g s)) →
        (∀ s, (g s).currentFunc = s.currentFunc) →
        parseLines s ((l ++ ['\n']) :: (items.flatMap Item.lines).map (· ++ ['\n']))
          = s.flush >>= fun s => do
            let ds ← moduleDirectives (g s).fiuNameBase items
            return (g s).directives ++ ds := by
      intro s l g hstep hg
      rw [parseLines_cons, hstep]
      rcases hflush : s.flush with e | s₁
      · rfl
      · show parseLines (g s₁) _ = _
        rw [ih, ParseState.flush_of_none ((hg s₁).trans (ParseState.flush_none hflush))]
        rfl
    intro s
    rw [List.flatMap_cons, List.map_append]
    cases item with
    | base v => exact hone s _ _ (step_base s v) fun s => rfl
    | includeFile v =>
      refine (hone s _ _ (step_includeFile s v) fun s => rfl).trans ?_
      refine congrArg _ (funext fun s' => ?_)
      show (moduleDirectives s'.fiuNameBase items >>= fun ds => _)
        = (moduleDirectives s'.fiuNameBase items >>= fun ds => _) >>= fun ds => _
      rcases moduleDirectives s'.fiuNameBase items with e | ds
      · rfl
      · exact congrArg Except.ok (List.append_assoc ..)
    | verbatim v =>
      refine (hone s _ _ (step_verbatim s v) fun s => rfl).trans ?_
      refine congrArg _ (funext fun s' => ?_)
      show (moduleDirectives s'.fiuNameBase items >>= fun ds => _)
        = (moduleDirectives s'.fiuNameBase items >>= fun ds => _) >>= fun ds => _
      rcases moduleDirectives s'.fiuNameBase items with e | ds
      · rfl
      · exact congrArg Except.ok (List.append_assoc ..)
    | entry d infos =>
      have hlines : (Item.entry d infos).lines.map (· ++ ['\n'])
          = (d.text ++ ['\n']) :: infos.map fun i => i.text ++ ['\n'] := by
        rw [Item.lines, List.map_cons, List.map_map]
        rfl
      rw [hlines, List.cons_append, parseLines_cons, step_declaration]
      rcases s.flush with e | s₁
      · rfl
      · show parseLines { s₁ with currentFunc := some (d.function s₁.fiuNameBase) } _ = _
        rw [parseLines_infos infos _ _ (d.function s₁.fiuNameBase) rfl]
        show (d.load infos s₁.fiuNameBase >>= fun f => _) = moduleDirectives _ _ >>= fun ds => _
        rw [moduleDirectives]
        rcases d.load infos s₁.fiuNameBase with e | f
        · rfl
        · show parseLines { s₁ with currentFunc := some f } _ = _
          rw [ih]
          show (f.variantDirectives >>= fun ds => _) >>= (fun s => _)
            = (f.variantDirectives >>= fun ds => _) >>= fun ds => _
          rcases f.variantDirectives with e | ds
          · rfl
          · show (moduleDirectives s₁.fiuNameBase items >>= fun ds => _)
              = (moduleDirectives s₁.fiuNameBase items >>= fun ds => _) >>= fun ds => _
            rcases moduleDirectives s₁.fiuNameBase items with e | more
            · rfl
            · exact congrArg Except.ok (List.append_assoc ..)

/-! ## The functions of a module

The directives have the functions in them, with their variants and the lines for the compiler. -/

/-- The lines for the compiler around the variants left out, they are those of `get_all_variants`. -/
theorem variantDirectives_functions (f : ParsedFunction) :
    f.variantDirectives.map (List.filterMap Directive.function?) = f.getAllVariants := by
  have hall : ∀ vs : List String,
      (vs.mapM f.guardedVariant).map (fun dss => dss.flatten.filterMap Directive.function?)
        = vs.mapM f.applyVariant := by
    intro vs
    induction vs with
    | nil => rfl
    | cons v vs ih =>
      rw [List.mapM_cons, List.mapM_cons, ← ih]
      rcases hv : f.applyVariant v with e | g
      · have hguarded : f.guardedVariant v = .error e := by
          unfold ParsedFunction.guardedVariant
          rw [hv]
          rfl
        rw [hguarded]
        rfl
      · obtain ⟨ds, hguarded, hds⟩ : ∃ ds, f.guardedVariant v = .ok ds ∧
            ds.filterMap Directive.function? = [g] := by
          unfold ParsedFunction.guardedVariant
          rw [hv]
          exact ⟨_, rfl, rfl⟩
        rw [hguarded]
        rcases vs.mapM f.guardedVariant with e | dss
        · rfl
        · show Except.ok ((ds :: dss).flatten.filterMap Directive.function?) = Except.ok (g :: _)
          rw [List.flatten_cons, List.filterMap_append, hds]
          rfl
  unfold ParsedFunction.variantDirectives ParsedFunction.getAllVariants
  rw [← hall]
  rcases f.variants.mapM f.guardedVariant with e | dss
  · rfl
  · rfl

/-- The entries of a module, each with the base of the names above it. -/
def entriesOf : String → List Item → List Entry
  | _, [] => []
  | _, .base v :: items => entriesOf v.base items
  | base, .entry d infos :: items =>
    { retType := String.ofList d.retType.text
      name := String.ofList d.name.chars
      params := paramStrings (d.params.map Param.info)
      fiuNameBase := base
      infos := infos.map fun i => (String.ofList i.key.chars, String.ofList i.value.chars) } ::
      entriesOf base items
  | base, _ :: items => entriesOf base items

/-- The functions that a module means are those of its entries. By induction on the items, under any
    base. -/
theorem moduleDirectives_functions (items : List Item) : ∀ base : String,
    (moduleDirectives base items).map (List.filterMap Directive.function?)
      = ((entriesOf base items).mapM Entry.load).map List.flatten := by
  induction items with
  | nil => exact fun base => rfl
  | cons item items ih =>
    intro base
    cases item with
    | base v => exact ih v.base
    | includeFile v =>
      refine Eq.trans ?_ (ih base)
      rw [moduleDirectives]
      rcases moduleDirectives base items with e | ds <;> rfl
    | verbatim v =>
      refine Eq.trans ?_ (ih base)
      rw [moduleDirectives]
      rcases moduleDirectives base items with e | ds <;> rfl
    | entry d infos =>
      have hload : Entry.load { retType := String.ofList d.retType.text
                                name := String.ofList d.name.chars
                                params := paramStrings (d.params.map Param.info)
                                fiuNameBase := base
                                infos := infos.map fun i =>
                                  (String.ofList i.key.chars, String.ofList i.value.chars) }
          = d.load infos base >>= ParsedFunction.getAllVariants := by
        unfold Entry.load
        rw [List.foldlM_map]
        rfl
      rw [entriesOf, List.mapM_cons, hload, moduleDirectives]
      rcases d.load infos base with e | f
      · rfl
      · have hvariants := variantDirectives_functions f
        show (f.variantDirectives >>= fun ds => moduleDirectives base items >>= fun more =>
            Except.ok (ds ++ more)).map _
          = (f.getAllVariants >>= fun fs => (entriesOf base items).mapM Entry.load >>= fun fss =>
            Except.ok (fs :: fss)).map List.flatten
        rw [← hvariants]
        rcases f.variantDirectives with e | ds
        · rfl
        · have hrest := ih base
          show (moduleDirectives base items >>= fun more => Except.ok (ds ++ more)).map _
            = ((entriesOf base items).mapM Entry.load >>= fun fss =>
              Except.ok (ds.filterMap Directive.function? :: fss)).map List.flatten
          generalize moduleDirectives base items = x at hrest ⊢
          generalize (entriesOf base items).mapM Entry.load = y at hrest ⊢
          rcases x with e | more <;> rcases y with e' | fss
          · cases hrest
            rfl
          · cases hrest
          · cases hrest
          · have hmore : more.filterMap Directive.function? = fss.flatten := Except.ok.inj hrest
            show Except.ok ((ds ++ more).filterMap _) = Except.ok (_ :: fss).flatten
            rw [List.filterMap_append, hmore, List.flatten_cons]

theorem variantDirectives_significant {f : ParsedFunction} {ds : List Directive}
    (h : f.variantDirectives = .ok ds) : ∀ d ∈ ds, d.significant = true := by
  obtain ⟨dss, hmap, h⟩ := bind_ok h
  obtain rfl : Directive.function f :: dss.flatten = ds := Except.ok.inj h
  intro d hd
  rcases List.mem_cons.mp hd with rfl | hd
  · rfl
  · obtain ⟨variant, hvariant, hd⟩ := List.mem_flatten.mp hd
    obtain ⟨v, -, hv⟩ := mapM_ok hmap variant hvariant
    obtain ⟨g, -, hv⟩ := bind_ok hv
    have hall : variant.all Directive.significant = true := by
      cases hv
      rfl
    exact List.all_eq_true.mp hall d hd

/-- All directives that are meant are significant. -/
theorem moduleDirectives_all (items : List Item) : ∀ {base : String} {ds : List Directive},
    moduleDirectives base items = .ok ds → ∀ d ∈ ds, d.significant = true := by
  induction items with
  | nil =>
    intro base ds h d hd
    obtain rfl : [] = ds := Except.ok.inj h
    cases hd
  | cons item items ih =>
    -- one directive in front of the others
    have hone : ∀ {base : String} {ds : List Directive} {first : Directive},
        (moduleDirectives base items >>= fun more => Except.ok (first :: more)) = .ok ds →
        first.significant = true → ∀ d ∈ ds, d.significant = true := by
      intro base ds first h hfirst d hd
      obtain ⟨more, hrest, h⟩ := bind_ok h
      obtain rfl : first :: more = ds := Except.ok.inj h
      rcases List.mem_cons.mp hd with rfl | hd
      · exact hfirst
      · exact ih hrest d hd
    intro base ds h
    cases item with
    | base v => exact ih h
    | includeFile v => exact hone h rfl
    | verbatim v => exact hone h rfl
    | entry d infos =>
      rw [moduleDirectives] at h
      obtain ⟨f, -, h⟩ := bind_ok h
      obtain ⟨first, hvariants, h⟩ := bind_ok h
      obtain ⟨more, hrest, h⟩ := bind_ok h
      obtain rfl : first ++ more = ds := Except.ok.inj h
      intro d hd
      rcases List.mem_append.mp hd with hd | hd
      · exact variantDirectives_significant hvariants d hd
      · exact ih hrest d hd

theorem moduleDirectives_significant (items : List Item) (base : String) :
    significantDirectives (moduleDirectives base items) = moduleDirectives base items := by
  rcases h : moduleDirectives base items with e | ds
  · rfl
  · exact congrArg Except.ok (List.filter_eq_self.mpr (moduleDirectives_all items h))

/-- The directives of a module that is written like this. -/
theorem parseModule_text {items : List Item} {lines : List (List (List Char))}
    (hbreaks : ∀ chunks ∈ lines, Breaks chunks)
    (hlines : (lines.map List.flatten).filter significant = items.flatMap Item.lines) :
    significantDirectives (parseModule (moduleText lines)) = moduleDirectives "UNKNOWN" items := by
  have hfilter : (lines.map fun chunks => chunks.flatten ++ ['\n']).filter significant
      = (items.flatMap Item.lines).map (· ++ ['\n']) := by
    rw [← hlines, List.filter_map, List.filter_map, List.map_map]
    congr 1
    refine List.filter_congr fun chunks _ => ?_
    exact significant_newline chunks.flatten
  rw [parseModule, logicalLines_text hbreaks, parseLines_significant, hfilter, parseLines_items]
  refine Eq.trans ?_ (moduleDirectives_significant items "UNKNOWN")
  show significantDirectives (moduleDirectives "UNKNOWN" items >>= fun ds => Except.ok ([] ++ ds)) = _
  rcases moduleDirectives "UNKNOWN" items with e | ds <;> rfl

/-- The functions of directives. -/
def functionsOf (r : Except String (List Directive)) : Except String (List ParsedFunction) :=
  r.map (List.filterMap Directive.function?)

theorem functionsOf_significant (r : Except String (List Directive)) :
    functionsOf (significantDirectives r) = functionsOf r := by
  rcases r with e | ds
  · rfl
  · refine congrArg Except.ok ?_
    rw [List.filterMap_filter]
    refine List.filterMap_congr fun d _ => ?_
    cases d <;> rfl

/-- **A module is read as it is written.** The items are given, each with its lines. `lines` is a
    text that has them: each line may be broken into several by backslashes (`hbreaks`), and blank
    lines and comments may stand between them (`hlines`).

    The directives are those of the items in their order, with the blank lines and comments left
    out; and the functions are those of the entries, each under the base of the names above it, with
    its variants, or the first error in them is raised. -/
theorem parse_module_reads {items : List Item} {lines : List (List (List Char))}
    (hbreaks : ∀ chunks ∈ lines, Breaks chunks)
    (hlines : (lines.map List.flatten).filter significant = items.flatMap Item.lines) :
    significantDirectives (parseModule (moduleText lines)) = moduleDirectives "UNKNOWN" items ∧
      functionsOf (parseModule (moduleText lines))
        = ((entriesOf "UNKNOWN" items).mapM Entry.load).map List.flatten := by
  have hparse := parseModule_text hbreaks hlines
  refine ⟨hparse, ?_⟩
  rw [← functionsOf_significant, hparse]
  exact moduleDirectives_functions items "UNKNOWN"

/-! ## A module, for instance

The beginning of libc.mm.mod, with more layout than it has. -/

/-- A word. -/
def CWord.of (s : String) (h : s.toList ≠ [] ∧ s.toList.all isWord = true) : CWord :=
  ⟨s.toList, h.1, List.all_eq_true.mp h.2⟩

/-- Blanks. -/
def Blanks.of (s : String) (h : s.toList.all isSpace = true ∧ '\n' ∉ s.toList) : Blanks :=
  ⟨s.toList, List.all_eq_true.mp h.1, h.2⟩

/-- A value. -/
def Value.of (s : String) (h : Posix.trimmed s.toList = true) : Value := ⟨s.toList, h⟩

/-- A type that is one word, with a blank and stars behind it. -/
def CType.of (w : CWord) (stars : ℕ) : CType :=
  ⟨[⟨w, .of " " (by decide), List.cons_ne_nil _ _, stars⟩], List.cons_ne_nil _ _⟩

/-- `void *calloc(size_t nmemb, size_t size);`, with more blanks behind the comma. -/
def callocDeclaration : Declaration where
  retType := .of (.of "void" (by decide)) 1
  name := .of "calloc" (by decide)
  params :=
    [⟨.of (.of "size_t" (by decide)) 0, .of "nmemb" (by decide), .of " \t\t" (by decide)⟩,
      ⟨.of (.of "size_t" (by decide)) 0, .of "size" (by decide), .of "" (by decide)⟩]

/-- `on error: NULL` -/
def onErrorNull : Info where
  indent := '\t'
  indent_eq := Or.inr rfl
  more := .of "" (by decide)
  key := ⟨"on error".toList, by decide, by decide, by decide, by decide⟩
  value := .of "NULL" (by decide)

/-- The items of libc.mm.mod, abridged. -/
def callocItems : List Item :=
  [.includeFile (.of "<stdlib.h>" (by decide)), .base (.of "libc/mm/" (by decide)),
    .entry callocDeclaration [onErrorNull]]

/-- They can be written down like this: the declaration is broken, and there is a comment in it. -/
def callocLines : List (List (List Char)) :=
  [["include: <stdlib.h>"], [""], ["fiu name base: libc/mm/"],
    ["void *calloc(size_t nmemb, ", "\t\tsize_t size);"], ["# what calloc returns"],
    ["\ton error: NULL"]].map (List.map String.toList)

theorem parse_module_reads_calloc :
    significantDirectives (parseModule (moduleText callocLines))
        = moduleDirectives "UNKNOWN" callocItems ∧
      functionsOf (parseModule (moduleText callocLines))
        = ((entriesOf "UNKNOWN" callocItems).mapM Entry.load).map List.flatten := by
  have hbreaks : ∀ chunks ∈ callocLines, Breaks chunks := by
    have hall : ∀ chunks ∈ callocLines, (∀ chunk ∈ chunks, '\n' ∉ chunk) ∧
        chunks.flatten.getLast? ≠ some '\\' := by decide +kernel
    exact fun chunks h => ⟨(hall chunks h).1, (hall chunks h).2⟩
  have hlines : (callocLines.map List.flatten).filter significant
      = callocItems.flatMap Item.lines := by decide +kernel
  exact parse_module_reads hbreaks hlines

end Posix

end Libfiu
