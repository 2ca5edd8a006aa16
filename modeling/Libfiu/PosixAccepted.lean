/-
  What `parse_module` of preload/posix/generate accepts is well formed.

  The names of functions and parameters are put into C code as they are, and so are the types of the
  parameters.  Whatever the text of a module is, if `parse_module` reads it without an error, then the
  names are words of C and the types consist of words, blanks and stars (`parse_module_well_formed`).

  It is the regular expressions that see to this: what a group captures is a word of what it is around
  (`Regex.Accepts.captured`).  The rest is an invariant of the loop (`ParseState.WellFormed`).

  This is about what comes out, for any text whatsoever: most texts are refused, and nothing is said
  of which. That a module which is written as it should be comes out as it is meant, is
  `parse_module_reads`. The two together say that the parser is right on what it should take, and
  harmless on the rest.

  Text is taken to be ASCII here, because `\w` of Python takes other letters for words as well,
  which are none in C.
-/
import Libfiu.PosixModule
import Libfiu.Lib.Errors

namespace Libfiu

namespace Posix

open Errors Regex

/-! ## Well-formed functions

Only characters are spoken of: whether the words are types that C knows is not for the generator to
say. -/

/-- A word of C. -/
def IsName (s : String) : Prop := s.toList ≠ [] ∧ ∀ c ∈ s.toList, isWord c = true

/-- A type consists of words, blanks and stars. -/
def IsType (s : String) : Prop :=
  s.toList ≠ [] ∧ ∀ c ∈ s.toList, isWordStar c = true ∨ isSpace c = true

/-- What the generator writes of the function is C, as far as it is names and types. -/
structure ParsedFunction.WellFormed (f : ParsedFunction) : Prop where
  name : IsName f.name
  params : ∀ p ∈ f.params, IsType p.1 ∧ IsName p.2

/-! ## The expressions

What an expression reads consists of the characters that occur in it, whichever way it reads them;
nothing is said of which way that is.

That all letters of an expression are of a kind (`Regex.Within`) is seen by going through the
expression, and then all letters of its words are of that kind. -/

/-- The characters of a type. -/
theorem typeRe_within : typeRe.Within fun c => isWordStar c = true ∨ isSpace c = true := by
  have hword : ∀ c, isWordStar c = true → isWordStar c = true ∨ isSpace c = true :=
    fun c hc => Or.inl hc
  have hspace : ∀ c, isSpace c = true → isWordStar c = true ∨ isSpace c = true :=
    fun c hc => Or.inr hc
  have hstar : ∀ c, (c == '*') = true → isWordStar c = true ∨ isSpace c = true := by
    intro c hc
    left
    rw [isWordStar, hc, Bool.or_true]
  have hpiece : pieceRe.Within fun c => isWordStar c = true ∨ isSpace c = true :=
    ⟨⟨hword, hword⟩, ⟨hspace, hspace⟩, hstar⟩
  exact ⟨hpiece, hpiece⟩

/-- A word of the expression for types. -/
theorem isType_of_accepts {u : List Char} {c : Captures Group Char} (h : Accepts typeRe u c) :
    IsType (String.ofList u) := by
  have hall := h.within typeRe_within
  obtain ⟨v, w, _, _, rfl, -, hpiece, -⟩ := h.seq_split
  obtain ⟨x, y, _, _, rfl, -, hword, -⟩ := hpiece.seq_split
  refine ⟨?_, ?_⟩
  · rw [String.toList_ofList]
    exact fun hnil => hword.plus_char.1
      (List.append_eq_nil_iff.mp (List.append_eq_nil_iff.mp hnil).1).1
  · rw [String.toList_ofList]
    exact hall

/-- What a group for a name captures. -/
theorem isName_of_accepts {u : List Char} {c : Captures Group Char}
    (h : Accepts (plus (.char isWord)) u c) : IsName (String.ofList u) := by
  obtain ⟨hne, hall, -⟩ := h.plus_char
  refine ⟨?_, ?_⟩
  · rw [String.toList_ofList]
    exact hne
  · rw [String.toList_ofList]
    exact hall

/-- What the groups of `func_def_re` are around. -/
theorem funcDefRe_name {r : Re} (h : (Group.name, r) ∈ funcDefRe.groups) : r = plus (.char isWord) := by
  have hgroups : funcDefRe.groups = [(.retType, typeRe), (.retType, typeRe),
      (.name, plus (.char isWord)), (.params, .star dot)] := rfl
  rw [hgroups] at h
  simpa using h

/-- What the groups of `params_info_re` are around. -/
theorem paramsInfoRe_groups {g : Group} {r : Re} (h : (g, r) ∈ paramsInfoRe.groups) :
    (g = .type → r = typeRe) ∧ (g = .name → r = plus (.char isWord)) := by
  have hgroups : paramsInfoRe.groups = [(.type, typeRe), (.type, typeRe),
      (.name, plus (.char isWord)), (.type, typeRe), (.type, typeRe),
      (.name, plus (.char isWord))] := rfl
  rw [hgroups] at h
  simp only [List.mem_cons, Prod.mk.injEq, List.not_mem_nil, or_false] at h
  rcases h with ⟨rfl, rfl⟩ | ⟨rfl, rfl⟩ | ⟨rfl, rfl⟩ | ⟨rfl, rfl⟩ | ⟨rfl, rfl⟩ | ⟨rfl, rfl⟩ <;> simp

/-- A parameter that is found has a type and a name. -/
theorem paramInfo_of_accepts {u : List Char} {c : Captures Group Char}
    (h : Accepts paramsInfoRe u c) :
    IsType (String.ofList (paramInfo c).1) ∧ IsName (String.ofList (paramInfo c).2) := by
  have hcaptured := h.captured
  obtain ⟨v, w, d, e, rfl, rfl, hparam, -⟩ := h.seq_split
  obtain ⟨x, y, d₁, d₂, rfl, rfl, htypes, hrest⟩ := hparam.seq_split
  obtain ⟨x₁, x₂, _, _, rfl, rfl, htype, -⟩ := htypes.seq_split
  obtain ⟨y₁, y₂, _, _, rfl, rfl, hname, -⟩ := hrest.seq_split
  refine ⟨?_, ?_⟩
  · obtain ⟨t, ht⟩ := Captures.get?_of_mem (List.mem_append_left e
      (List.mem_append_left _ (List.mem_append_left _ htype.group_mem)))
    obtain ⟨r, k, hr, hacc⟩ := hcaptured _ (Captures.mem_of_get? ht)
    rw [(paramsInfoRe_groups hr).1 rfl] at hacc
    rw [paramInfo, ht]
    exact isType_of_accepts hacc
  · obtain ⟨t, ht⟩ := Captures.get?_of_mem (List.mem_append_left e
      (List.mem_append_right _ (List.mem_append_left _ hname.group_mem)))
    obtain ⟨r, k, hr, hacc⟩ := hcaptured _ (Captures.mem_of_get? ht)
    rw [(paramsInfoRe_groups hr).2 rfl] at hacc
    rw [paramInfo, ht]
    exact isName_of_accepts hacc

/-- **What the expressions find is well formed**, in every text. -/
theorem loadFromDefinition_well_formed {definition retType name : List Char}
    {params : List (List Char × List Char)}
    (h : loadFromDefinition definition = some (retType, name, params)) :
    IsName (String.ofList name) ∧
      ∀ p ∈ params, IsType (String.ofList p.1) ∧ IsName (String.ofList p.2) := by
  unfold loadFromDefinition at h
  obtain ⟨⟨m, rest⟩, hfirst, h⟩ := Option.bind_eq_some_iff.mp h
  obtain ⟨name', hname, h⟩ := Option.bind_eq_some_iff.mp h
  obtain ⟨retType', -, h⟩ := Option.bind_eq_some_iff.mp h
  obtain ⟨text, -, h⟩ := Option.bind_eq_some_iff.mp h
  cases h
  obtain ⟨u, -, hacc⟩ := paths_sound funcDefRe definition (m, rest) (List.mem_of_head? hfirst)
  refine ⟨?_, ?_⟩
  · obtain ⟨r, k, hr, hname⟩ := hacc.captured _ (Captures.mem_of_get? hname)
    rw [funcDefRe_name hr] at hname
    exact isName_of_accepts hname
  · intro p hp
    obtain ⟨c, hc, rfl⟩ := List.mem_map.mp hp
    obtain ⟨v, hparam⟩ := matchesFrom_sound _ text c hc
    exact paramInfo_of_accepts hparam

/-! ## The functions

Names and parameters come from the declaration alone, and a variant adds `64` to a name.

So the invariant has to be shown for `ofDefinition`, where names and types are made, and for
`apply_variant`, which changes types; the lines of a function in between change other fields. -/

theorem ParsedFunction.ofDefinition_well_formed {definition : List Char} {base : String}
    {f : ParsedFunction} (h : ParsedFunction.ofDefinition definition base = .ok f) : f.WellFormed := by
  unfold ParsedFunction.ofDefinition at h
  split at h
  · cases h
  · rename_i retType name params hload
    obtain ⟨hname, hparams⟩ := loadFromDefinition_well_formed hload
    cases h
    refine ⟨hname, fun p hp => ?_⟩
    obtain ⟨q, hq, rfl⟩ := List.mem_map.mp hp
    exact hparams q hq

/-- A line about a function changes neither its name nor its parameters. -/
theorem ParsedFunction.loadInfo_ok {f g : ParsedFunction} {k v : String} (h : f.loadInfo k v = .ok g) :
    g.name = f.name ∧ g.params = f.params := by
  unfold ParsedFunction.loadInfo at h
  split at h
  · cases h
    exact ⟨rfl, rfl⟩
  split at h
  · cases h
    exact ⟨rfl, rfl⟩
  split at h
  · cases h
    exact ⟨rfl, rfl⟩
  split at h
  · cases h
    exact ⟨rfl, rfl⟩
  split at h
  · cases h
    exact ⟨rfl, rfl⟩
  split at h
  · cases h
    exact ⟨rfl, rfl⟩
  · cases h

theorem ParsedFunction.WellFormed.loadInfoLine {f g : ParsedFunction} (hf : f.WellFormed)
    {info : List Char} (h : f.loadInfoLine info = .ok g) : g.WellFormed := by
  unfold ParsedFunction.loadInfoLine at h
  split at h
  · obtain ⟨hname, hparams⟩ := ParsedFunction.loadInfo_ok h
    refine ⟨?_, ?_⟩
    · rw [hname]
      exact hf.name
    · rw [hparams]
      exact hf.params
  · cases h
    exact hf

/-- The types that `apply_variant` puts in. -/
theorem isType_variantType {ty : String} (h : IsType ty) : IsType (variantType ty) := by
  have hliteral : ∀ s : String, (s.toList ≠ [] ∧ s.toList.all (fun c => isWordStar c || isSpace c)) →
      IsType s := by
    intro s hs
    refine ⟨hs.1, fun c hc => ?_⟩
    exact Bool.or_eq_true_iff.mp (List.all_eq_true.mp hs.2 c hc)
  unfold variantType
  split
  · exact hliteral _ (by decide)
  · split
    · exact hliteral _ (by decide)
    · split
      · exact hliteral _ (by decide)
      · exact h

theorem ParsedFunction.WellFormed.applyVariant {f g : ParsedFunction} (hf : f.WellFormed) {v : String}
    (h : f.applyVariant v = .ok g) : g.WellFormed := by
  unfold ParsedFunction.applyVariant at h
  split at h
  · cases h
  · cases h
    refine ⟨?_, fun p hp => ?_⟩
    · have hdigits : ∀ c ∈ "64".toList, isWord c = true := by simp [isWord]
      show IsName (f.name ++ "64")
      rw [IsName, String.toList_append]
      refine ⟨List.append_ne_nil_of_left_ne_nil hf.name.1 _, fun c hc => ?_⟩
      exact (List.mem_append.mp hc).elim (hf.name.2 c) (hdigits c)
    · obtain ⟨q, hq, rfl⟩ := List.mem_map.mp hp
      exact ⟨isType_variantType (hf.params q hq).1, (hf.params q hq).2⟩

/-- The functions among the directives are well formed. -/
def AllWellFormed (ds : List Directive) : Prop := ∀ f, Directive.function f ∈ ds → f.WellFormed

theorem AllWellFormed.append {ds ds' : List Directive} (h : AllWellFormed ds)
    (h' : AllWellFormed ds') : AllWellFormed (ds ++ ds') :=
  fun f hf => (List.mem_append.mp hf).elim (h f) (h' f)

/-- A function with its variants. -/
theorem ParsedFunction.WellFormed.variantDirectives {f : ParsedFunction} (hf : f.WellFormed)
    {ds : List Directive} (h : f.variantDirectives = .ok ds) : AllWellFormed ds := by
  obtain ⟨dss, hmap, h⟩ := bind_ok h
  cases h
  intro g hg
  rcases List.mem_cons.mp hg with hself | hg
  · cases hself
    exact hf
  · obtain ⟨variant, hvariant, hg⟩ := List.mem_flatten.mp hg
    obtain ⟨v, -, hv⟩ := mapM_ok hmap variant hvariant
    obtain ⟨g', happly, hv⟩ := bind_ok hv
    cases hv
    simp only [List.mem_cons, reduceCtorEq, Directive.function.injEq, List.not_mem_nil, or_false,
      false_or] at hg
    rw [hg]
    exact hf.applyVariant happly

/-! ## The loop

An invariant of the parser over any list of lines, right or wrong. -/

/-- The invariant of the loop. -/
structure ParseState.WellFormed (s : ParseState) : Prop where
  directives : AllWellFormed s.directives
  currentFunc : ∀ f ∈ s.currentFunc, f.WellFormed

theorem ParseState.WellFormed.flush {s s' : ParseState} (hs : s.WellFormed)
    (h : s.flush = .ok s') : s'.WellFormed := by
  unfold ParseState.flush at h
  cases hf : s.currentFunc with
  | none =>
    rw [hf] at h
    cases h
    exact hs
  | some f =>
    rw [hf] at h
    obtain ⟨ds, hds, h⟩ := bind_ok h
    cases h
    refine ⟨hs.directives.append ((hs.currentFunc f hf).variantDirectives hds), fun g hg => ?_⟩
    cases hg

/-- A directive that is no function is added. -/
theorem ParseState.WellFormed.add {s : ParseState} (hs : s.WellFormed) {d : Directive}
    (hd : d.function? = none) : ParseState.WellFormed { s with directives := s.directives ++ [d] } := by
  refine ⟨hs.directives.append fun f hf => ?_, hs.currentFunc⟩
  rw [← List.mem_singleton.mp hf] at hd
  cases hd

theorem ParseState.WellFormed.directive {s s' : ParseState} (hs : s.WellFormed) {line : List Char}
    (h : s.directive line = .ok s') : s'.WellFormed := by
  unfold ParseState.directive at h
  dsimp only at h
  split at h
  · cases h
    exact ⟨hs.directives, hs.currentFunc⟩
  split at h
  · cases h
    exact hs.add rfl
  split at h
  · cases h
    exact hs.add rfl
  · cases h

/-- **The body of the loop keeps the invariant**, whatever the line is. -/
theorem ParseState.WellFormed.step {s s' : ParseState} {l : List Char} (hs : s.WellFormed)
    (h : s.step l = .ok s') : s'.WellFormed := by
  unfold ParseState.step at h
  split at h
  · cases h
    exact hs.add rfl
  split at h
  · cases h
    exact hs.add rfl
  split at h
  · -- the current function is done
    obtain ⟨s₁, hflush, h⟩ := bind_ok h
    have hs₁ := hs.flush hflush
    split at h
    · exact hs₁.directive h
    · obtain ⟨f, hf, h⟩ := bind_ok h
      cases h
      refine ⟨hs₁.directives, fun g hg => ?_⟩
      obtain rfl : f = g := Option.some.inj hg
      exact ParsedFunction.ofDefinition_well_formed hf
  · cases hcurrent : s.currentFunc with
    | none =>
      rw [hcurrent] at h
      cases h
    | some f =>
      rw [hcurrent] at h
      obtain ⟨f', hf', h⟩ := bind_ok h
      cases h
      refine ⟨hs.directives, fun g hg => ?_⟩
      obtain rfl : f' = g := Option.some.inj hg
      exact (hs.currentFunc f hcurrent).loadInfoLine hf'

/-- **What is accepted is well formed**, whatever the text of the module is: the name of every
    function among the directives, its variants included, is an identifier, and so are the names of
    its parameters; and its types are made of words, stars and blanks, and are not empty. -/
theorem parse_module_well_formed {text : List Char} {ds : List Directive}
    (h : parseModule text = .ok ds) : ∀ f, Directive.function f ∈ ds → f.WellFormed := by
  have hstart : ParseState.start.WellFormed := by
    refine ⟨fun f hf => ?_, fun f hf => ?_⟩
    · cases hf
    · cases hf
  obtain ⟨s, hloop, h⟩ := bind_ok h
  obtain ⟨s', hflush, h⟩ := bind_ok h
  cases h
  have hs := foldlM_ok (fun s l s' hs h => ParseState.WellFormed.step hs h) hstart hloop
  exact (hs.flush hflush).directives

/-- A text with a function that has a variant. -/
def lseekText : List Char :=
  ("include: <unistd.h>\nfiu name base: posix/io/rw/\n\n# lseek\noff_t lseek(int fildes, off_t offset, " ++
    "int whence);\n\ton error: -1\n\tvariants: off64_t\n").toList

theorem parse_module_well_formed_lseek :
    ∃ ds, parseModule lseekText = .ok ds ∧ ∀ f, Directive.function f ∈ ds → f.WellFormed := by
  have hok : (parseModule lseekText).toOption.isSome = true := by decide +kernel
  obtain ⟨ds, hds⟩ := Option.isSome_iff_exists.mp hok
  have hparse : parseModule lseekText = .ok ds := by
    rcases hresult : parseModule lseekText with e | ds'
    · rw [hresult] at hds
      cases hds
    · rw [hresult] at hds
      exact congrArg Except.ok (Option.some.inj hds)
  exact ⟨ds, hparse, parse_module_well_formed hparse⟩

end Posix

end Libfiu
