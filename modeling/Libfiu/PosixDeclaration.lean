/-
  What the two regular expressions of preload/posix/generate make of a C declaration.

  A `Declaration` is of the kind that the modules have: types are words, each with blanks and stars behind
  it, names are words, and the parameters are separated by commas.  `func_def_re` and `params_info_re`
  overlap with themselves in many ways; `loadFromDefinition_text` is that the first one that the matcher
  tries to the end is the one that is meant.

  On a type and the name behind it, nothing is tried in vain except one more word of the type
  (`typeRe_name`).  Behind the name, `.*` runs to the end of the line, and comes back to the only
  parenthesis.

  That the expressions overlap with themselves does not make the result a matter of taste: Python's
  matcher takes the first way in a fixed order, and which way that is has to be shown, step by step,
  by showing that all ways before it fail. The rules for this are in `Lib/Regex`; here they are
  applied to words, blanks, stars, commas and parentheses, of which the matcher can only tell what
  their classes say.
-/
import Libfiu.PosixModule

namespace Libfiu

namespace Posix

open Regex

/-! ## Characters

The classes of characters are apart, so the expressions cannot read one kind for another. -/

/-- A blank is no letter of a type. -/
theorem isSpace_not_wordStar {c : Char} (h : isSpace c = true) : isWordStar c = false := by
  have hall : ∀ n ∈ spaceCodes, isWordStar (Char.ofNat n) = false := by decide
  have hc := hall c.toNat (of_decide_eq_true h)
  rwa [Char.ofNat_toNat] at hc

/-- A letter of a type is no blank. -/
theorem isWordStar_not_space {c : Char} (h : isWordStar c = true) : isSpace c = false := by
  by_contra hc
  rw [Bool.not_eq_false] at hc
  rw [isSpace_not_wordStar hc] at h
  cases h

/-- A letter of a word is a letter of a type. -/
theorem isWord_wordStar {c : Char} (h : isWord c = true) : isWordStar c = true := by
  rw [isWordStar, h, Bool.true_or]

/-- A letter of a word is none of the characters that are not. -/
theorem isWord_ne {c d : Char} (h : isWord c = true) (hd : isWord d = false) : c ≠ d := by
  rintro rfl
  rw [h] at hd
  cases hd

/-! ## Declarations

A declaration as it is meant, and the text that it stands for. Every text that the modules have is
one of these. -/

/-- A word of C. -/
structure CWord where
  chars : List Char
  ne : chars ≠ []
  word : ∀ c ∈ chars, isWord c = true

/-- Blanks within a line. -/
structure Blanks where
  chars : List Char
  space : ∀ c ∈ chars, isSpace c = true
  line : '\n' ∉ chars

/-- A word of a type, with the blanks and the stars behind it. -/
structure Piece where
  word : CWord
  blanks : Blanks
  blanks_ne : blanks.chars ≠ []
  stars : ℕ

/-- The text of a piece. -/
def Piece.text (p : Piece) : List Char :=
  p.word.chars ++ (p.blanks.chars ++ List.replicate p.stars '*')

/-- A type, as it stands in front of a name. -/
structure CType where
  pieces : List Piece
  ne : pieces ≠ []

/-- The text of a type. -/
def CType.text (t : CType) : List Char := t.pieces.flatMap Piece.text

/-- A parameter, with the blanks between the comma behind it and the next one. -/
structure Param where
  type : CType
  name : CWord
  gap : Blanks

/-- Parameters, separated by commas. -/
def joinParams : List Param → List Char
  | [] => []
  | [p] => p.type.text ++ p.name.chars
  | p :: ps => p.type.text ++ (p.name.chars ++ ',' :: (p.gap.chars ++ joinParams ps))

/-- What is between the parentheses. -/
def paramsText (ps : List Param) : List Char := if ps = [] then ['v', 'o', 'i', 'd'] else joinParams ps

/-- A declaration of a function. -/
structure Declaration where
  retType : CType
  name : CWord
  params : List Param

/-- The text of a declaration. -/
def Declaration.text (d : Declaration) : List Char :=
  d.retType.text ++ (d.name.chars ++ '(' :: (paramsText d.params ++ [')', ';']))

/-! ## A type and a name

A type is a repetition of pieces, each of which ends in a blank or a star. The name behind it ends
in neither, so the repetition stops in front of the name: it cannot read on, and has no reason to go
back. -/

/-- `s` goes on with something that is neither a letter of a type nor a blank. -/
def Stops (s : List Char) : Prop := ∀ c ∈ s.head?, isWordStar c = false ∧ isSpace c = false

/-- `s` starts with a letter. -/
def StartsWord (s : List Char) : Prop := ∃ c s', s = c :: s' ∧ isWord c = true

/-- A word starts with a letter. -/
theorem CWord.starts (w : CWord) (s : List Char) : StartsWord (w.chars ++ s) := by
  rcases hw : w.chars with _ | ⟨c, chars⟩
  · exact absurd hw w.ne
  · exact ⟨c, chars ++ s, rfl, w.word c (by rw [hw]; exact List.mem_cons_self ..)⟩

theorem StartsWord.head {s : List Char} (h : StartsWord s) {p : Char → Bool}
    (hp : ∀ c, isWord c = true → p c = false) : ∀ c ∈ s.head?, p c = false := by
  obtain ⟨c, s', rfl, hc⟩ := h
  intro d hd
  obtain rfl : c = d := Option.some.inj hd
  exact hp c hc

/-- A word that is not followed by a blank is no piece of a type. -/
theorem pieceRe_fails {w s : List Char} (hw : ∀ c ∈ w, isWord c = true) (hs : Stops s) :
    pieceRe.paths (w ++ s) = [] := by
  refine paths_eq_nil fun u v c hu hacc => ?_
  obtain ⟨x, y, _, _, rfl, -, hword, hrest⟩ := hacc.seq_split
  obtain ⟨b, st, _, _, rfl, -, hblank, -⟩ := hrest.seq_split
  obtain ⟨hx, hxall, -⟩ := hword.plus_char
  obtain ⟨hb, hball, -⟩ := hblank.plus_char
  rcases b with _ | ⟨a, b⟩
  · exact hb rfl
  have ha := hball a (List.mem_cons_self ..)
  have hsplit : w ++ s = x ++ (a :: (b ++ (st ++ v))) := by
    rw [hu]
    simp only [List.append_assoc, List.cons_append]
  rcases List.append_eq_append_iff.mp hsplit with ⟨x', rfl, hs'⟩ | ⟨w', rfl, ha'⟩
  · -- the word of the piece would go on behind `w`
    rcases x' with _ | ⟨d, x'⟩
    · obtain rfl : s = a :: (b ++ (st ++ v)) := hs'
      rw [(hs a rfl).2] at ha
      cases ha
    · have hd := hxall d (List.mem_append_right _ (List.mem_cons_self ..))
      rw [hs'] at hs
      rw [(hs d rfl).1] at hd
      cases hd
  · -- the blank would be in `w`, or behind it
    rcases w' with _ | ⟨d, w'⟩
    · obtain rfl : a :: (b ++ (st ++ v)) = s := ha'
      rw [(hs a rfl).2] at ha
      cases ha
    · obtain ⟨rfl, -⟩ := List.cons.inj ha'
      have hd := hw a (List.mem_append_right _ (List.mem_cons_self ..))
      rw [isWordStar_not_space (isWord_wordStar hd)] at ha
      cases ha

/-- What cannot be read once cannot be repeated. -/
theorem plus_fails {r : Re} {s : List Char} (h : r.paths s = []) : (plus r).paths s = [] := by
  rw [plus, paths, h]
  rfl

/-- What cannot be read cannot be captured. -/
theorem group_fails {r : Re} {g : Group} {s : List Char} (h : r.paths s = []) :
    (Regex.group g r).paths s = [] := by
  rw [paths, h]
  rfl

/-- A name is no type. -/
theorem typeRe_fails {w s : List Char} (hw : ∀ c ∈ w, isWord c = true) (hs : Stops s) :
    typeRe.paths (w ++ s) = [] := plus_fails (pieceRe_fails hw hs)

/-- A piece, in front of a word. -/
theorem pieceRe_text (p : Piece) {s : List Char} (hs : StartsWord s) :
    First pieceRe (p.text ++ s) [] s := by
  have hblank : ∀ c ∈ (p.blanks.chars ++ (List.replicate p.stars '*' ++ s)).head?,
      isWordStar c = false := by
    rcases hb : p.blanks.chars with _ | ⟨c, b⟩
    · exact absurd hb p.blanks_ne
    · intro d hd
      obtain rfl : c = d := Option.some.inj hd
      exact isSpace_not_wordStar (p.blanks.space c (by rw [hb]; exact List.mem_cons_self ..))
  have hstars : ∀ c ∈ (List.replicate p.stars '*' ++ s).head?, isSpace c = false := by
    rcases p.stars with _ | n
    · exact hs.head fun c hc => isWordStar_not_space (isWord_wordStar hc)
    · intro d hd
      obtain rfl : '*' = d := Option.some.inj hd
      decide
  have htext : p.text ++ s
      = p.word.chars ++ (p.blanks.chars ++ (List.replicate p.stars '*' ++ s)) := by
    simp only [Piece.text, List.append_assoc]
  rw [htext]
  have hword := First.plus_char (G := Group) p.word.ne
    (fun c hc => isWord_wordStar (p.word.word c hc)) hblank
  have hspace := First.plus_char (G := Group) p.blanks_ne p.blanks.space hstars
  have hstar := First.star_char (G := Group) (p := fun c => c == '*')
    (u := List.replicate p.stars '*') (fun c hc => by rw [List.eq_of_mem_replicate hc]; rfl)
    (hs.head fun c hc => by simpa using isWord_ne hc (by decide))
  exact First.seq hword (First.seq hspace hstar)

/-- A piece starts with its word. -/
theorem Piece.starts (p : Piece) (s : List Char) : StartsWord (p.text ++ s) := by
  rw [Piece.text, List.append_assoc]
  exact p.word.starts _

/-- A type starts with its first piece. -/
theorem pieces_starts (ps : List Piece) {s : List Char} (hs : StartsWord s) :
    StartsWord (ps.flatMap Piece.text ++ s) := by
  rcases ps with _ | ⟨p, ps⟩
  · exact hs
  · rw [List.flatMap_cons, List.append_assoc]
    exact p.starts _

/-- The pieces of a type, and then the name. -/
theorem pieces_name (ps : List Piece) (w : CWord) {s : List Char} (hs : Stops s) :
    First (.star pieceRe) (ps.flatMap Piece.text ++ (w.chars ++ s)) [] (w.chars ++ s) := by
  induction ps with
  | nil =>
    show First (.star pieceRe) (w.chars ++ s) [] (w.chars ++ s)
    exact First.stop (pieceRe_fails w.word hs)
  | cons p ps ih =>
    have hp := pieceRe_text p (pieces_starts ps (w.starts s))
    rw [List.flatMap_cons, List.append_assoc]
    refine First.star hp ?_ ih
    rcases hw : p.word.chars with _ | ⟨c, chars⟩
    · exact absurd hw p.word.ne
    · rw [Piece.text, hw]
      simp only [List.length_append, List.length_cons]
      omega

/-- **A type and a name**: the type ends where the name starts. -/
theorem typeRe_name (t : CType) (w : CWord) {s : List Char} (hs : Stops s) :
    First typeRe (t.text ++ (w.chars ++ s)) [] (w.chars ++ s) := by
  obtain ⟨ps, hne⟩ := t
  rcases ps with _ | ⟨p, ps⟩
  · exact absurd rfl hne
  · have hp := pieceRe_text p (pieces_starts ps (w.starts s))
    show First typeRe ((p :: ps).flatMap Piece.text ++ (w.chars ++ s)) [] (w.chars ++ s)
    rw [List.flatMap_cons, List.append_assoc]
    exact First.seq hp (pieces_name ps w hs)

/-- The group of a type, repeated, and then the group of the name. -/
theorem group_name (g : Group) (t : CType) (w : CWord) {s rest : List Char}
    {c : Captures Group Char} {r : Re} (hs : Stops s) (hr : First r s c rest) :
    First (.seq (.plus (.group g typeRe)) (.seq nameRe r)) (t.text ++ (w.chars ++ s))
      ([(g, t.text)] ++ ([(.name, w.chars)] ++ c)) rest := by
  have htype : First (.plus (.group g typeRe)) (t.text ++ (w.chars ++ s)) [(g, t.text)]
      (w.chars ++ s) :=
    First.seq (First.group (typeRe_name t w hs)) (First.stop (group_fails (typeRe_fails w.word hs)))
  have hname : First nameRe (w.chars ++ s) [(.name, w.chars)] s :=
    First.group (First.plus_char w.ne w.word fun d hd => by
      have hno := (hs d hd).1
      rw [isWordStar, Bool.or_eq_false_iff] at hno
      exact hno.1)
  exact First.seq htype (First.seq hname hr)

/-! ## The parameters

`findall` begins each match where the one before ended. The lazy repetition takes one parameter at a
time, with its comma. -/

theorem Blanks.head_word (b : Blanks) {s : List Char} (hs : StartsWord s) :
    First (.star (.char isSpace) : Re) (b.chars ++ s) [] s :=
  First.star_char b.space (hs.head fun _ hc => isWordStar_not_space (isWord_wordStar hc))

theorem joinParams_cons (p q : Param) (ps : List Param) :
    joinParams (p :: q :: ps)
      = p.type.text ++ (p.name.chars ++ ',' :: (p.gap.chars ++ joinParams (q :: ps))) := rfl

/-- Parameters start with the type of the first one. -/
theorem joinParams_starts {ps : List Param} (hne : ps ≠ []) : StartsWord (joinParams ps) := by
  rcases ps with _ | ⟨p, _ | ⟨q, ps⟩⟩
  · exact absurd rfl hne
  · exact pieces_starts p.type.pieces (by simpa using p.name.starts [])
  · exact pieces_starts p.type.pieces (p.name.starts _)

/-- The captures of a parameter. -/
def Param.captures (p : Param) : Captures Group Char :=
  [(.type, p.type.text), (.name, p.name.chars)]

/-- The last parameter. -/
theorem paramsInfoRe_last (p : Param) :
    First paramsInfoRe (p.type.text ++ p.name.chars) p.captures [] := by
  have hrest : First (.seq (.opt (lit ',')) (.star (.char isSpace)) : Re) [] ([] ++ []) [] :=
    First.seq (First.opt_none rfl) (First.stop rfl)
  have hparam := group_name .type p.type p.name (s := []) (fun _ hc => by cases hc) hrest
  rw [List.append_nil] at hparam
  exact First.seq hparam First.lazy

/-- A parameter that is not the last one. -/
theorem paramsInfoRe_next (p : Param) {s : List Char} (hs : StartsWord s) :
    First paramsInfoRe (p.type.text ++ (p.name.chars ++ ',' :: (p.gap.chars ++ s))) p.captures s := by
  have hcomma : First (.opt (lit ',') : Re) (',' :: (p.gap.chars ++ s)) [] (p.gap.chars ++ s) :=
    First.opt (First.char rfl)
  have hends : Stops (',' :: (p.gap.chars ++ s)) := by
    intro c hc
    obtain rfl : ',' = c := Option.some.inj hc
    decide
  exact First.seq (group_name .type p.type p.name hends (First.seq hcomma (p.gap.head_word hs)))
    First.lazy

/-- Nothing is found in a single word. -/
theorem findAll_word {w : List Char} (hw : ∀ c ∈ w, isWord c = true) : paramsInfoRe.findAll w = [] := by
  have hfails : ∀ v : List Char, (∀ c ∈ v, isWord c = true) → paramsInfoRe.paths v = [] := by
    intro v hv
    have htype : typeRe.paths (v ++ []) = [] := typeRe_fails hv fun c hc => by cases hc
    rw [List.append_nil] at htype
    have hplus := plus_fails (group_fails (g := .type) htype)
    rw [paramsInfoRe, lazyPlus, paths, paramRe, paths, hplus]
    rfl
  induction w with
  | nil =>
    unfold findAll matchesFrom first
    rw [hfails [] hw]
    rfl
  | cons c w ih =>
    rw [findAll_skip (hfails (c :: w) hw), ih fun d hd => hw d (List.mem_cons_of_mem _ hd)]

/-- **The parameters** are found in their order. -/
theorem findAll_joinParams (ps : List Param) :
    paramsInfoRe.findAll (joinParams ps) = ps.map Param.captures := by
  induction ps with
  | nil => exact findAll_word fun c hc => by cases hc
  | cons p ps ih =>
    rcases ps with _ | ⟨q, ps⟩
    · rw [joinParams, (paramsInfoRe_last p).findAll]
      · rw [findAll_word fun c hc => by cases hc]
        rfl
      · obtain ⟨c, s, hstart, -⟩ := joinParams_starts (List.cons_ne_nil p [])
        rw [joinParams] at hstart
        rw [hstart]
        simp
    · rw [joinParams_cons, (paramsInfoRe_next p (joinParams_starts (List.cons_ne_nil q ps))).findAll,
        ih]
      · rfl
      · simp only [List.length_append, List.length_cons]
        omega

/-- Of `void` nothing is found. -/
theorem findAll_paramsText (ps : List Param) :
    paramsInfoRe.findAll (paramsText ps) = ps.map Param.captures := by
  unfold paramsText
  split
  · rename_i hps
    rw [hps]
    exact findAll_word (by simp [isWord])
  · exact findAll_joinParams ps

/-! ## The declaration

Behind the name, `.*` reads on to the end and goes back to the last parenthesis; there is only one,
so it is the right one. -/

/-- What is found of a parameter. -/
def Param.info (p : Param) : List Char × List Char := (p.type.text, p.name.chars)

/-- The characters of a type. -/
theorem CType.text_mem {t : CType} {c : Char} (hc : c ∈ t.text) :
    isWordStar c = true ∨ isSpace c = true ∧ c ≠ '\n' := by
  obtain ⟨p, -, hp⟩ := List.mem_flatMap.mp hc
  rcases List.mem_append.mp hp with hw | hrest
  · exact Or.inl (isWord_wordStar (p.word.word c hw))
  · rcases List.mem_append.mp hrest with hb | hs
    · refine Or.inr ⟨p.blanks.space c hb, ?_⟩
      rintro rfl
      exact p.blanks.line hb
    · rw [List.eq_of_mem_replicate hs]
      exact Or.inl (by decide)

/-- The characters between the parentheses. -/
theorem paramsText_mem {ps : List Param} {c : Char} (hc : c ∈ paramsText ps) :
    isWordStar c = true ∨ isSpace c = true ∧ c ≠ '\n' ∨ c = ',' := by
  unfold paramsText at hc
  split at hc
  · left
    have hvoid : ∀ d ∈ ['v', 'o', 'i', 'd'], isWordStar d = true := by
      simp [isWordStar, isWord]
    exact hvoid c hc
  · rename_i hne
    clear hne
    induction ps with
    | nil => cases hc
    | cons p ps ih =>
      rcases ps with _ | ⟨q, ps⟩
      · rcases List.mem_append.mp hc with ht | hn
        · exact (CType.text_mem ht).imp_right Or.inl
        · exact Or.inl (isWord_wordStar (p.name.word c hn))
      · rw [joinParams_cons] at hc
        rcases List.mem_append.mp hc with ht | hc
        · exact (CType.text_mem ht).imp_right Or.inl
        rcases List.mem_append.mp hc with hn | hc
        · exact Or.inl (isWord_wordStar (p.name.word c hn))
        rcases List.mem_cons.mp hc with rfl | hc
        · exact Or.inr (Or.inr rfl)
        rcases List.mem_append.mp hc with hg | hc
        · refine Or.inr (Or.inl ⟨p.gap.space c hg, ?_⟩)
          rintro rfl
          exact p.gap.line hg
        · exact ih hc

/-- There is no parenthesis between the parentheses, no end of the line and no colon. -/
theorem paramsText_ne {ps : List Param} {c d : Char} (hc : c ∈ paramsText ps)
    (hd : d ∈ ['(', ')', ':', '#', '\n']) : c ≠ d := by
  have hword : ∀ d ∈ ['(', ')', ':', '#', '\n'], isWordStar d = false := by
    simp [isWordStar, isWord]
  have hother : ∀ d ∈ ['(', ')', ':', '#', '\n'], isSpace d = false ∨ d = '\n' := by
    simp [isSpace, spaceCodes]
  have hcomma : ∀ d ∈ ['(', ')', ':', '#', '\n'], d ≠ ',' := by simp
  rintro rfl
  rcases paramsText_mem hc with h | ⟨h, hline⟩ | h
  · rw [hword c hd] at h
    cases h
  · rcases hother c hd with hno | hno
    · rw [hno] at h
      cases h
    · exact hline hno
  · exact hcomma c hd h

/-- A character that is another one cannot be read. -/
theorem lit_fails {c : Char} {s : List Char} (h : ∀ d ∈ s.head?, d ≠ c) : (lit c).paths s = [] := by
  rcases s with _ | ⟨d, s⟩
  · rfl
  · have hd : (d == c) = false := beq_eq_false_iff_ne.mpr (h d rfl)
    rw [lit, paths, hd]
    rfl

/-- A sequence whose first part cannot be read cannot be read. -/
theorem seq_fails {r t : Re} {s : List Char} (h : r.paths s = []) : (Regex.seq r t).paths s = [] := by
  rw [paths, h]
  rfl

/-- What is behind the name: the parentheses are found. -/
theorem tail_first (ps : List Param) :
    First (.seq (.star dot) <| .seq (lit '(') <| .seq (.group .params (.star dot)) <|
        .seq (lit ')') <| .seq (.star dot) (lit ';') : Re)
      ('(' :: (paramsText ps ++ [')', ';'])) [(.params, paramsText ps)] [] := by
  have hline : ∀ c ∈ paramsText ps, (c != '\n') = true := fun c hc =>
    bne_iff_ne.mpr (paramsText_ne hc (by simp))
  -- from the last character backwards, `.*` and what follows it
  have hsemicolon : First (.seq (.star dot) (lit ';') : Re) [';'] [] [] := by
    obtain ⟨before, after, hpaths, hbefore⟩ :=
      paths_star_char (G := Group) (p := fun c => c != '\n') [] [';'] (fun c hc => by cases hc)
    have hlast : First (lit ';') [';'] [] [] := First.char (by decide)
    refine First.seq_of_split (c := []) hpaths (fun m hm => ?_) hlast
    obtain ⟨v, hv, -, hsplit⟩ := hbefore m hm
    rcases v with _ | ⟨a, v⟩
    · exact absurd rfl hv
    · obtain ⟨-, hrest⟩ := List.cons.inj hsplit
      obtain ⟨-, hm2⟩ := List.append_eq_nil_iff.mp hrest.symm
      rw [hm2]
      rfl
  have hclose : First (.seq (lit ')') <| .seq (.star dot) (lit ';') : Re) [')', ';'] ([] ++ []) [] :=
    First.seq (First.char (by decide)) hsemicolon
  have hparams : First (.seq (.group .params (.star dot)) <| .seq (lit ')') <|
      .seq (.star dot) (lit ';') : Re) (paramsText ps ++ [')', ';'])
      ([(.params, paramsText ps)] ++ ([] ++ [])) [] := by
    obtain ⟨before, after, hpaths, hbefore⟩ :=
      paths_group_star_char (p := fun c => c != '\n') Group.params (paramsText ps) [')', ';'] hline
    refine First.seq_of_split hpaths (fun m hm => seq_fails (lit_fails ?_)) hclose
    -- behind the parenthesis there is no other one
    obtain ⟨v, hv, -, hsplit⟩ := hbefore m hm
    rcases v with _ | ⟨a, v⟩
    · exact absurd rfl hv
    · obtain ⟨-, hrest⟩ := List.cons.inj hsplit
      intro d hd
      have hmem : d ∈ [';'] := by
        rw [hrest]
        exact List.mem_append_right _ (List.mem_of_head? hd)
      obtain rfl := List.mem_singleton.mp hmem
      decide
  have hopen := First.seq (First.char (p := fun c => c == '(') (a := '(') (by decide)) hparams
  obtain ⟨before, after, hpaths, hbefore⟩ := paths_star_char (G := Group) (p := fun c => c != '\n') []
    ('(' :: (paramsText ps ++ [')', ';'])) (fun c hc => by cases hc)
  refine First.seq_of_split (c := []) hpaths (fun m hm => seq_fails (lit_fails ?_)) hopen
  obtain ⟨v, hv, -, hsplit⟩ := hbefore m hm
  rcases v with _ | ⟨a, v⟩
  · exact absurd rfl hv
  · obtain ⟨-, hrest⟩ := List.cons.inj hsplit
    intro d hd
    have hmem : d ∈ paramsText ps ++ [')', ';'] := by
      rw [hrest]
      exact List.mem_append_right _ (List.mem_of_head? hd)
    rcases List.mem_append.mp hmem with hd | hd
    · exact paramsText_ne hd (by simp)
    · have hno : ∀ d ∈ [')', ';'], d ≠ '(' := by simp
      exact hno d hd

/-- **A declaration is taken apart as it is meant.** -/
theorem loadFromDefinition_text (d : Declaration) :
    loadFromDefinition d.text
      = some (d.retType.text, d.name.chars, d.params.map Param.info) := by
  have hends : Stops ('(' :: (paramsText d.params ++ [')', ';'])) := by
    intro c hc
    obtain rfl : '(' = c := Option.some.inj hc
    decide
  have hfirst : First funcDefRe d.text _ _ :=
    group_name .retType d.retType d.name hends (tail_first d.params)
  unfold loadFromDefinition
  rw [hfirst]
  show some (d.retType.text, d.name.chars, (paramsInfoRe.findAll (paramsText d.params)).map paramInfo)
    = _
  rw [findAll_paramsText, List.map_map]
  rfl

end Posix

end Libfiu
