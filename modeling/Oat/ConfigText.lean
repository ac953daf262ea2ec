import Mathlib.Data.Bool.AllAny
import Mathlib.Data.List.TakeWhile
import Oat.TextLines

/-!
# Configuration files

`ConfigParser.SafeConfigParser` of Python 2: sections of options, each
with a value that may go on over lines that are indented, comments, and
values that refer to others. `read` is `_read`, `Parser.get` is `get`.

`read_options` is what a file with one section and plain values is read
as: the options that were written.
-/

namespace Oat

namespace ConfigText

inductive Error where
  | missingSectionHeader
  | parsing
  | noSection
  | noOption
  | interpolationSyntax
  | interpolationMissingOption
  | interpolationDepth
  | typeError
deriving Repr, DecidableEq

/-- A Python 2 string literal. -/
def pyStr (s : String) : List UInt8 := s.toList.map Char.toUInt8

def lower (bs : List UInt8) : List UInt8 :=
  bs.map fun b => if 0x41 ≤ b ∧ b ≤ 0x5a then b + 0x20 else b

def rstrip (bs : List UInt8) : List UInt8 := (lstrip bs.reverse).reverse

/-! ## Reading a file -/

abbrev Options := List (List UInt8 × List UInt8)

def Options.set (os : Options) (name value : List UInt8) : Options :=
  (name, value) :: os.filter (·.1 != name)

/-- The sections so far, and where the next line goes. -/
structure Parser where
  defaults : List (List UInt8 × Option (List UInt8))
  sections : List (List UInt8 × Options)
  cursect : Option (List UInt8)
  optname : Option (List UInt8)
  failed : Bool

def defaultsect : List UInt8 := pyStr "DEFAULT"

/-- The options of the current section, changed. -/
def Parser.modify (r : Parser) (sect : List UInt8) (f : Options → Options) : Parser :=
  { r with sections := r.sections.map fun s => if s.1 = sect then (s.1, f s.2) else s }

/-- In the section that the lines before were of, or the defaults. -/
def Parser.setOption (r : Parser) (sect name value : List UInt8) : Parser :=
  if sect = defaultsect then
    { r with defaults := (name, some value) :: r.defaults.filter (·.1 != name) }
  else r.modify sect (·.set name value)

def Parser.value? (r : Parser) (sect name : List UInt8) : Option (List UInt8) :=
  if sect = defaultsect then (r.defaults.lookup name).join
  else (r.sections.lookup sect).bind (·.lookup name)

def Parser.openSection (r : Parser) (sect : List UInt8) : Parser :=
  let r := { r with cursect := some sect, optname := none }
  if sect = defaultsect ∨ (r.sections.lookup sect).isSome then r
  else { r with sections := (sect, [(pyStr "__name__", sect)]) :: r.sections }

/-- Blank, or behind one of `#`, `;` and `rem`. -/
def isComment (line : List UInt8) : Bool :=
  strip line == [] || line.head? == some 0x23 || line.head? == some 0x3b ||
    lower (line.takeWhile fun b => !isSpace b) == pyStr "rem"

/-- `SECTCRE`. -/
def sectionHeader? : List UInt8 → Option (List UInt8)
  | [] => none
  | b :: rest =>
      let header := rest.takeWhile (· != 0x5d)
      if b = 0x5b ∧ header ≠ [] ∧ header.length < rest.length then some header else none

/-- `;` behind white space begins a comment; in front of it, if it comes
first, is the last byte. -/
def cutComment (value : List UInt8) : List UInt8 :=
  let pos := (value.takeWhile (· != 0x3b)).length
  let before := if pos = 0 then value.getLast? else value[pos - 1]?
  if pos < value.length ∧ before.any isSpace then value.take pos else value

/-- `_optcre`, and what becomes of its groups. -/
def optionLine? (line : List UInt8) : Option (List UInt8 × List UInt8) :=
  let name := line.takeWhile fun b => b != 0x3a && b != 0x3d
  match name, line.drop name.length with
  | b :: _, _ :: rest =>
      if isSpace b then none
      else
        let value := strip (cutComment ((lstrip rest).takeWhile (· != newline)))
        some (lower (rstrip name), if value = pyStr "\"\"" then [] else value)
  | _, _ => none

def readLine (r : Parser) (line : List UInt8) : Except Error Parser :=
  if isComment line then .ok r
  else
    match r.cursect, r.optname with
    | some sect, some name =>
        if line.head?.any isSpace then
          let value := (r.value? sect name).getD []
          .ok (r.setOption sect name (value ++ newline :: strip line))
        else readFresh r line
    | _, _ => readFresh r line
where
  /-- A line that continues none. -/
  readFresh (r : Parser) (line : List UInt8) : Except Error Parser :=
    match sectionHeader? line, r.cursect with
    | some sect, _ => .ok (r.openSection sect)
    | none, none => .error .missingSectionHeader
    | none, some sect =>
        match optionLine? line with
        | some (name, value) => .ok { r.setOption sect name value with optname := some name }
        | none => .ok { r with failed := true }

def read (defaults : List (List UInt8 × Option (List UInt8))) (file : List UInt8) :
    Except Error Parser := do
  let r ← (readlines file).foldlM readLine ⟨defaults, [], none, none, false⟩
  if r.failed then .error .parsing else pure r

/-! ## Values -/

def maxInterpolationDepth : Nat := 10

/-- `_interpolate_some`, on what is left of a value; `depth` is how much
deeper it may go. -/
def interpolateSome (map : List UInt8 → Option (Option (List UInt8))) (depth : Nat)
    (rest : List UInt8) : Except Error (List UInt8) :=
  match rest with
  | [] => .ok []
  | 0x25 :: 0x25 :: rest => do
      let more ← interpolateSome map depth rest
      pure (0x25 :: more)
  | 0x25 :: 0x28 :: rest =>
      let name := rest.takeWhile (· != 0x29)
      if name = [] ∨ (rest.drop name.length).take 2 ≠ pyStr ")s" then .error .interpolationSyntax
      else
        match map (lower name) with
        | none => .error .interpolationMissingOption
        | some none => .error .typeError
        | some (some value) => do
            let value ←
              if 0x25 ∈ value then
                match depth with
                | 0 => .error .interpolationDepth
                | depth + 1 => interpolateSome map depth value
              else pure value
            let more ← interpolateSome map depth (rest.drop (name.length + 2))
            pure (value ++ more)
  | 0x25 :: _ => .error .interpolationSyntax
  | b :: rest => do
      let more ← interpolateSome map depth rest
      pure (b :: more)
termination_by (depth, rest.length)
decreasing_by all_goals (simp_wf; omega)

/-- The value of an option; the defaults may have none for it. -/
def Parser.get (r : Parser) (sect option : List UInt8) :
    Except Error (Option (List UInt8)) :=
  let look (os : Options) (name : List UInt8) : Option (Option (List UInt8)) :=
    match os.lookup name with
    | some value => some (some value)
    | none => r.defaults.lookup name
  match if sect = defaultsect then some [] else r.sections.lookup sect with
  | none => .error .noSection
  | some os =>
      match look os (lower option) with
      | none => .error .noOption
      | some none => .ok none
      | some (some value) =>
          if 0x25 ∈ value then
            (interpolateSome (look os) (maxInterpolationDepth - 1) value).map some
          else .ok (some value)

/-! ## What was written -/

/-- `"name   = value\n"`. -/
def optionLine (name : List UInt8) (pad : Nat) (value : List UInt8) : List UInt8 :=
  name ++ (List.replicate pad 0x20 ++ 0x3d :: 0x20 :: value)

/-- A name that is read as itself. -/
structure IsName (name : List UInt8) : Prop where
  nonempty : name ≠ []
  bytes : ∀ b ∈ name, isSpace b = false ∧ b ≠ 0x3a ∧ b ≠ 0x3d ∧ b ≠ 0x23 ∧ b ≠ 0x3b ∧ b ≠ 0x5b
  lower : lower name = name
  notRem : name ≠ pyStr "rem"

/-- A value that is read as itself: no white space, comment, quotes or
reference in it. -/
def Plain (value : List UInt8) : Prop :=
  ∀ b ∈ value, isSpace b = false ∧ b ≠ 0x3b ∧ b ≠ 0x25 ∧ b ≠ 0x22

theorem Plain.no_newline {value : List UInt8} (h : Plain value) : newline ∉ value := fun hmem =>
  absurd (h _ hmem).1 (by decide)

section Option

variable {name value : List UInt8} {pad : Nat}

theorem optionLine_name (hname : IsName name) :
    (optionLine name pad value ++ [newline]).takeWhile (fun b => b != 0x3a && b != 0x3d) =
      name ++ List.replicate pad 0x20 := by
  have hpos : ∀ b ∈ name ++ List.replicate pad 0x20, (b != 0x3a && b != 0x3d) = true := by
    intro b hb
    rcases List.mem_append.mp hb with hb | hb
    · obtain ⟨-, hcolon, heq, -⟩ := hname.bytes b hb
      rw [bne_iff_ne.mpr hcolon, bne_iff_ne.mpr heq]
      rfl
    · rw [List.eq_of_mem_replicate hb]
      rfl
  rw [optionLine, ← List.append_assoc, List.append_assoc _ _ [newline],
    List.takeWhile_append_of_pos hpos]
  exact List.append_nil _

theorem rstrip_spaces (hname : IsName name) : rstrip (name ++ List.replicate pad 0x20) = name := by
  have hspaces : ∀ b ∈ List.replicate pad (0x20 : UInt8), isSpace b = true := fun b hb => by
    rw [List.eq_of_mem_replicate hb]
    rfl
  rw [rstrip, List.reverse_append, List.reverse_replicate, lstrip,
    List.dropWhile_append_of_pos hspaces]
  have hback : lstrip name.reverse = name.reverse :=
    lstrip_of_no_space fun b hb => (hname.bytes b (List.mem_reverse.mp hb)).1
  rw [lstrip] at hback
  rw [hback, List.reverse_reverse]

theorem cutComment_plain (h : Plain value) : cutComment value = value := by
  have hall : value.takeWhile (· != 0x3b) = value :=
    List.takeWhile_eq_self_iff.mpr fun b hb => bne_iff_ne.mpr (h b hb).2.1
  simp only [cutComment, hall]
  exact if_neg fun hlt => absurd hlt.1 (Nat.lt_irrefl _)

/-- Between the separator and the newline. -/
theorem value_plain (h : Plain value) :
    (lstrip (0x20 :: (value ++ [newline]))).takeWhile (· != newline) = value := by
  have hspace : isSpace 0x20 = true := rfl
  rw [lstrip, List.dropWhile_cons_of_pos hspace]
  cases value with
  | nil => rfl
  | cons b value =>
      have hb := (h b List.mem_cons_self).1
      have hpos : ∀ c ∈ b :: value, (c != newline) = true := fun c hc =>
        bne_iff_ne.mpr fun heq => h.no_newline (heq ▸ hc)
      rw [List.cons_append, List.dropWhile_cons_of_neg (by rw [hb]; exact Bool.false_ne_true),
        ← List.cons_append, List.takeWhile_append_of_pos hpos]
      exact List.append_nil _

theorem optionLine?_optionLine (hname : IsName name) (hvalue : Plain value) :
    optionLine? (optionLine name pad value ++ [newline]) = some (name, value) := by
  have hdrop : (optionLine name pad value ++ [newline]).drop (name ++ List.replicate pad 0x20).length
      = 0x3d :: 0x20 :: (value ++ [newline]) := by
    rw [optionLine, ← List.append_assoc, List.append_assoc _ _ [newline], List.drop_left]
    rfl
  obtain ⟨b, rest, rfl⟩ := List.exists_cons_of_ne_nil hname.nonempty
  have hb := (hname.bytes b List.mem_cons_self).1
  have hquotes : value ≠ pyStr "\"\"" := by
    rintro rfl
    exact (hvalue 0x22 List.mem_cons_self).2.2.2 rfl
  simp only [optionLine?, optionLine_name hname, hdrop]
  rw [List.cons_append]
  simp only [hb, Bool.false_eq_true, if_false]
  rw [← List.cons_append, rstrip_spaces hname, hname.lower, value_plain hvalue,
    cutComment_plain hvalue, strip_of_no_space fun c hc => (hvalue c hc).1, if_neg hquotes]

/-- An option is neither a comment nor a section, and continues nothing. -/
theorem readLine_option (hname : IsName name) (hvalue : Plain value) (hpad : 0 < pad) {r : Parser}
    {sect : List UInt8} (hsect : r.cursect = some sect) :
    readLine r (optionLine name pad value ++ [newline]) =
      .ok { r.setOption sect name value with optname := some name } := by
  have hread : optionLine? (optionLine name pad value ++ [newline]) = some (name, value) :=
    optionLine?_optionLine hname hvalue
  obtain ⟨pad, rfl⟩ : ∃ n, pad = n + 1 := ⟨pad - 1, by omega⟩
  obtain ⟨b, rest, rfl⟩ := List.exists_cons_of_ne_nil hname.nonempty
  obtain ⟨hspace, -, -, hhash, hsemi, hbracket⟩ := hname.bytes b List.mem_cons_self
  have hword : (optionLine (b :: rest) (pad + 1) value ++ [newline]).takeWhile
      (fun c => !isSpace c) = b :: rest := by
    have hpos : ∀ c ∈ b :: rest, (!isSpace c) = true := fun c hc => by
      rw [(hname.bytes c hc).1]
      rfl
    rw [optionLine, List.append_assoc, List.takeWhile_append_of_pos hpos]
    exact List.append_nil _
  have hcomment : isComment (optionLine (b :: rest) (pad + 1) value ++ [newline]) = false := by
    have hmem : b ∈ strip (optionLine (b :: rest) (pad + 1) value ++ [newline]) :=
      mem_strip hspace (by simp [optionLine])
    have hstrip : (strip (optionLine (b :: rest) (pad + 1) value ++ [newline]) == []) = false :=
      beq_false_of_ne fun heq => by
        rw [heq] at hmem
        cases hmem
    have hrem : (lower (b :: rest) == pyStr "rem") = false := by
      rw [hname.lower]
      exact beq_false_of_ne hname.notRem
    have hhead : (optionLine (b :: rest) (pad + 1) value ++ [newline]).head? = some b := rfl
    rw [isComment, hstrip, hword, hrem, hhead]
    simp [hhash, hsemi]
  have hfresh : readLine.readFresh r (optionLine (b :: rest) (pad + 1) value ++ [newline]) =
      .ok { r.setOption sect (b :: rest) value with optname := some (b :: rest) } := by
    have hnone : sectionHeader? (optionLine (b :: rest) (pad + 1) value ++ [newline]) = none :=
      if_neg fun h => hbracket h.1
    simp only [readLine.readFresh, hnone, hsect, hread]
  rw [readLine, if_neg (by rw [hcomment]; exact Bool.false_ne_true), hsect]
  cases r.optname with
  | none => exact hfresh
  | some old =>
      have hhead : (optionLine (b :: rest) (pad + 1) value ++ [newline]).head?.any isSpace = false :=
        hspace
      simp only [hhead, Bool.false_eq_true, if_false]
      exact hfresh

end Option

/-! ## A file of one section -/

/-- A section that is not the one of the defaults. -/
structure IsSection (sect : List UInt8) : Prop where
  nonempty : sect ≠ []
  bytes : ∀ b ∈ sect, b ≠ newline ∧ b ≠ 0x5d
  notDefault : sect ≠ defaultsect

def sectionLine (sect : List UInt8) : List UInt8 := 0x5b :: (sect ++ [0x5d])

/-- Options, as name, padding and value. -/
abbrev Written := List (List UInt8 × Nat × List UInt8)

def Written.Ok (os : Written) : Prop := ∀ o ∈ os, IsName o.1 ∧ 0 < o.2.1 ∧ Plain o.2.2

/-- `[section]`, the options, and a blank line. -/
def fileText (sect : List UInt8) (os : Written) : List UInt8 :=
  sectionLine sect ++ newline ::
    (os.flatMap (fun o => optionLine o.1 o.2.1 o.2.2 ++ [newline]) ++ [newline])

def optionsOf (sect : List UInt8) (os : Written) : Options :=
  os.foldl (fun options o => options.set o.1 o.2.2) [(pyStr "__name__", sect)]

section File

variable {sect : List UInt8} {os : Written}

theorem optionLine_no_newline {name value : List UInt8} (hname : IsName name) (hvalue : Plain value)
    (pad : Nat) : newline ∉ optionLine name pad value := by
  have hspace : isSpace newline = true := rfl
  intro hmem
  rcases List.mem_append.mp hmem with hmem | hmem
  · rw [(hname.bytes _ hmem).1] at hspace
    cases hspace
  · rcases List.mem_append.mp hmem with hmem | hmem
    · cases List.eq_of_mem_replicate hmem
    · rcases List.mem_cons.mp hmem with hmem | hmem
      · cases hmem
      · rcases List.mem_cons.mp hmem with hmem | hmem
        · cases hmem
        · exact hvalue.no_newline hmem

theorem readlines_options (hos : os.Ok) :
    readlines (os.flatMap (fun o => optionLine o.1 o.2.1 o.2.2 ++ [newline]) ++ [newline]) =
      os.map (fun o => optionLine o.1 o.2.1 o.2.2 ++ [newline]) ++ [[newline]] := by
  induction os with
  | nil => rfl
  | cons o os ih =>
      obtain ⟨hname, -, hvalue⟩ := hos o List.mem_cons_self
      have hrest := ih fun o' ho' => hos o' (List.mem_cons_of_mem _ ho')
      rw [List.flatMap_cons, List.append_assoc, List.append_assoc, List.singleton_append,
        readlines_cons (optionLine_no_newline hname hvalue _), hrest]
      rfl

theorem readLine_section (hsect : IsSection sect)
    (defaults : List (List UInt8 × Option (List UInt8))) :
    readLine ⟨defaults, [], none, none, false⟩ (sectionLine sect ++ [newline]) =
      .ok ⟨defaults, [(sect, [(pyStr "__name__", sect)])], some sect, none, false⟩ := by
  have htake : (sect ++ [0x5d] ++ [newline]).takeWhile (· != 0x5d) = sect := by
    rw [List.append_assoc, List.takeWhile_append_of_pos fun b hb =>
      bne_iff_ne.mpr (hsect.bytes b hb).2]
    exact List.append_nil _
  have hheader : sectionHeader? (sectionLine sect ++ [newline]) = some sect := by
    rw [sectionLine, List.cons_append, sectionHeader?, htake, if_pos]
    refine ⟨rfl, hsect.nonempty, ?_⟩
    simp
  have hcomment : isComment (sectionLine sect ++ [newline]) = false := by
    have hmem : 0x5b ∈ strip (sectionLine sect ++ [newline]) :=
      mem_strip rfl (by simp [sectionLine])
    have hstrip : (strip (sectionLine sect ++ [newline]) == []) = false :=
      beq_false_of_ne fun heq => by
        rw [heq] at hmem
        cases hmem
    rw [isComment, hstrip]
    rfl
  rw [readLine, if_neg (by rw [hcomment]; exact Bool.false_ne_true)]
  simp only [readLine.readFresh, hheader, Parser.openSection, List.lookup_nil, Option.isSome_none,
    Bool.false_eq_true, or_false, if_neg hsect.notDefault]

/-- In the section that the file has, the options collect. -/
theorem readLine_options (hos : os.Ok) (hsect : sect ≠ defaultsect)
    (defaults : List (List UInt8 × Option (List UInt8))) (options : Options)
    (optname : Option (List UInt8)) :
    ∃ optname', (os.map fun o => optionLine o.1 o.2.1 o.2.2 ++ [newline]).foldlM readLine
        ⟨defaults, [(sect, options)], some sect, optname, false⟩ =
      .ok ⟨defaults, [(sect, os.foldl (fun options o => options.set o.1 o.2.2) options)],
        some sect, optname', false⟩ := by
  induction os generalizing options optname with
  | nil => exact ⟨optname, rfl⟩
  | cons o os ih =>
      obtain ⟨hname, hpad, hvalue⟩ := hos o List.mem_cons_self
      obtain ⟨optname', hrest⟩ := ih (fun o' ho' => hos o' (List.mem_cons_of_mem _ ho'))
        (options.set o.1 o.2.2) (some o.1)
      refine ⟨optname', ?_⟩
      have hset : Parser.setOption ⟨defaults, [(sect, options)], some sect, optname, false⟩ sect o.1
          o.2.2 = ⟨defaults, [(sect, options.set o.1 o.2.2)], some sect, optname, false⟩ := by
        simp [Parser.setOption, Parser.modify, if_neg hsect]
      rw [List.map_cons, List.foldlM_cons, readLine_option hname hvalue hpad rfl, hset]
      exact hrest

/-- What was written is read. -/
theorem read_options (hsect : IsSection sect) (hos : os.Ok)
    (defaults : List (List UInt8 × Option (List UInt8))) :
    ∃ r, read defaults (fileText sect os) = .ok r ∧ r.defaults = defaults ∧
      r.sections = [(sect, optionsOf sect os)] := by
  have hline : newline ∉ sectionLine sect := by
    intro hmem
    rcases List.mem_cons.mp hmem with hmem | hmem
    · cases hmem
    · rcases List.mem_append.mp hmem with hmem | hmem
      · exact (hsect.bytes _ hmem).1 rfl
      · cases List.mem_singleton.mp hmem
  obtain ⟨optname, hrun⟩ := readLine_options hos hsect.notDefault defaults
    [(pyStr "__name__", sect)] none
  refine ⟨⟨defaults, [(sect, optionsOf sect os)], some sect, optname, false⟩, ?_, rfl, rfl⟩
  rw [read, fileText, readlines_cons hline, readlines_options hos, List.foldlM_cons,
    readLine_section hsect]
  have hblank : ∀ r : Parser, readLine r [newline] = .ok r := fun r => rfl
  simp only [bind, Except.bind, pure, Except.pure] at hrun ⊢
  rw [List.foldlM_append, hrun]
  simp only [bind, Except.bind, List.foldlM_cons, List.foldlM_nil, hblank, pure, Except.pure]
  rfl

end File

/-! ## Getting a value -/

section Get

variable {r : Parser} {sect name value : List UInt8} {options : Options}

theorem Options.lookup_set_self (os : Options) (name value : List UInt8) :
    (os.set name value).lookup name = some value := by
  rw [Options.set, List.lookup_cons_self]

theorem Options.lookup_set_of_ne (os : Options) {name other : List UInt8} (h : other ≠ name)
    (value : List UInt8) : (os.set name value).lookup other = os.lookup other := by
  have hne : (other == name) = false := beq_false_of_ne h
  have hfilter : (os.filter (·.1 != name)).lookup other = os.lookup other := by
    induction os with
    | nil => rfl
    | cons o os ih =>
        by_cases hsame : o.1 = name
        · have hother : (other == o.1) = false := hsame ▸ hne
          rw [List.filter_cons_of_neg (by simp [hsame]), List.lookup_cons, hother]
          exact ih
        · rw [List.filter_cons_of_pos (by simp [hsame]), List.lookup_cons, List.lookup_cons, ih]
  rw [Options.set, List.lookup_cons, hne]
  exact hfilter

/-- A value of the section itself, with no reference in it. -/
theorem get_option (hsect : r.sections = [(sect, options)]) (hdefault : sect ≠ defaultsect)
    (hname : lower name = name) (hvalue : options.lookup name = some value)
    (hplain : (0x25 : UInt8) ∉ value) : r.get sect name = .ok (some value) := by
  have hlookup : r.sections.lookup sect = some options := by
    rw [hsect, List.lookup_cons_self]
  simp only [Parser.get, if_neg hdefault, hlookup, hname, hvalue, if_neg hplain]

/-- A value that the section does not have. -/
theorem get_default (hsect : r.sections = [(sect, options)]) (hdefault : sect ≠ defaultsect)
    (hname : lower name = name) (hnone : options.lookup name = none)
    (hvalue : r.defaults.lookup name = some none) : r.get sect name = .ok none := by
  have hlookup : r.sections.lookup sect = some options := by
    rw [hsect, List.lookup_cons_self]
  simp only [Parser.get, if_neg hdefault, hlookup, hname, hnone, hvalue]

end Get

end ConfigText

end Oat
