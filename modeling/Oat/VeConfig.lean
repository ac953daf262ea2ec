import Oat.ConfigText
import Oat.LinePattern
import Oat.VeHookit

/-!
# The options of `hookit`: `gen_config.py` and `main`

`gen_config.py` looks up the addresses that the replay needs in listings
of the binary, those of its sections and those of its calls, and writes
them to a file; `main` of the verify engine reads the file, puts the
options of its own command line in front, and converts them to numbers.

* `mainOpts_text`: reading the file is the same as having its values;
* `mainOpts_listed`: what the options are for listings of a program;
* `mainOpts_genConfig_iff`: when there are options at all.
-/

namespace Oat

namespace Ve

open ConfigText (pyStr)

/-! ## `gen_config.py` -/

/-- The dictionary of the script. -/
structure ConfigDefaults where
  loadAddress : List UInt8
  textStart : List UInt8
  textEnd : List UInt8
  omitAddresses : List UInt8
  cfvInit : List UInt8
  cfvQuote : List UInt8
deriving Repr, DecidableEq

def configDefaults : ConfigDefaults where
  loadAddress := pyStr "0x400000"
  textStart := pyStr "0x400430"
  textEnd := pyStr "0x400818"
  omitAddresses := pyStr "0x000000"
  cfvInit := pyStr "0x000000"
  cfvQuote := pyStr "0x000000"

/-- `[0-9a-f]`. -/
def isHex (b : UInt8) : Bool := (0x30 ≤ b && b ≤ 0x39) || (0x61 ≤ b && b ≤ 0x66)

def isDigit (b : UInt8) : Bool := 0x30 ≤ b && b ≤ 0x39

section Patterns

open LinePattern

/-- `^\s+\[[\s\d]+\]\s<name>\s+PROGBITS\s+0000000000([0-9a-f]{6})\s+[0-9a-f]+$`. -/
def sectionPattern (name : String) : List Piece :=
  .many isSpace :: .one (· == 0x5b) :: .many (fun b => isSpace b || isDigit b) ::
    .one (· == 0x5d) :: .one isSpace :: (literal (pyStr name) ++ .many isSpace ::
      (literal (pyStr "PROGBITS") ++ .many isSpace ::
        (literal (pyStr "0000000000") ++ [.group 6 isHex, .many isSpace, .many isHex])))

/-- `^\s+[0-9a-f]{6}\:\s+[0-9a-f]+\s+bl\s+([0-9a-f]{6})\s+\<<name>\@plt\>\s?$`. -/
def callPattern (name : String) : List Piece :=
  .many isSpace :: (List.replicate 6 (.one isHex) ++ .one (· == 0x3a) :: .many isSpace ::
    .many isHex :: .many isSpace :: (literal (pyStr "bl") ++ .many isSpace :: .group 6 isHex ::
      .many isSpace :: (literal (pyStr "<" ++ pyStr name ++ pyStr "@plt>") ++ [.maybe isSpace])))

/-- The loops over the lines of a file: the last line that matches counts. -/
def lastMatch (ps : List Piece) (file init : List UInt8) : List UInt8 :=
  (readlines file).foldl
    (fun value line =>
      match matchLine ps line with
      | some g => pyStr "0x" ++ g
      | none => value) init

end Patterns

def extractTextStartAndEndFromPh (ph : List UInt8) : List UInt8 × List UInt8 :=
  (lastMatch (sectionPattern ".text") ph [], lastMatch (sectionPattern ".fini") ph [])

/-- The command line; `ph` is what the file it names has. -/
structure GenArgs where
  ph : Option (List UInt8)
  loadAddress : Option (List UInt8)
  textStart : Option (List UInt8)
  textEnd : Option (List UInt8)
deriving Repr, DecidableEq

def genConfig (args : GenArgs) (dump : List UInt8) : ConfigDefaults :=
  let c := configDefaults
  let c :=
    match args.ph with
    | some ph =>
        let (textStart, textEnd) := extractTextStartAndEndFromPh ph
        { c with textStart := textStart, textEnd := textEnd }
    | none => c
  { loadAddress := args.loadAddress.getD c.loadAddress
    textStart := args.textStart.getD c.textStart
    textEnd := args.textEnd.getD c.textEnd
    omitAddresses := pyStr "0x000000"
    cfvInit := lastMatch (callPattern "cfv_init") dump c.cfvInit
    cfvQuote := lastMatch (callPattern "cfv_quote") dump c.cfvQuote }

/-- What is written to the outfile. -/
def ConfigDefaults.text (c : ConfigDefaults) : List UInt8 :=
  pyStr "[code-addresses]\n" ++
    (pyStr "load_address   = " ++ c.loadAddress ++ pyStr "\n") ++
    (pyStr "text_start     = " ++ c.textStart ++ pyStr "\n") ++
    (pyStr "text_end       = " ++ c.textEnd ++ pyStr "\n") ++
    (pyStr "cfv_init       = " ++ c.cfvInit ++ pyStr "\n") ++
    (pyStr "cfv_quote      = " ++ c.cfvQuote ++ pyStr "\n") ++
    (pyStr "omit_addresses = " ++ c.omitAddresses ++ pyStr "\n") ++
    pyStr "\n"

/-! ## `verify_engine` -/

inductive MainError where
  | nameError
  | valueError
  | exit
  | config (e : ConfigText.Error)
deriving Repr, DecidableEq

def codeAddresses : List UInt8 := pyStr "code-addresses"

/-- `CONFIG_DEFAULTS`. -/
def veConfigDefaults : List (List UInt8 × Option (List UInt8)) :=
  [(pyStr "load_address", some (pyStr "0x0000")), (pyStr "text_start", none),
    (pyStr "text_end", none), (pyStr "cfv_init", none), (pyStr "cfv_quote", none),
    (pyStr "omit_addresses", none), (pyStr "tracefile", none)]

/-- What `read_config` returns. -/
structure ReadConfig where
  loadAddress : Option (List UInt8)
  textStart : Option (List UInt8)
  textEnd : Option (List UInt8)
  cfvInit : Option (List UInt8)
  cfvQuote : Option (List UInt8)
  omitAddresses : Option (List UInt8)
  tracefile : Option (List UInt8)
deriving Repr, DecidableEq

/-- A file that cannot be opened is passed over, as an empty one. -/
def readConfig (file : Option (List UInt8)) : Except ConfigText.Error ReadConfig := do
  let parser ← ConfigText.read veConfigDefaults (file.getD [])
  let loadAddress ← parser.get codeAddresses (pyStr "load_address")
  let textStart ← parser.get codeAddresses (pyStr "text_start")
  let textEnd ← parser.get codeAddresses (pyStr "text_end")
  let cfvInit ← parser.get codeAddresses (pyStr "cfv_init")
  let cfvQuote ← parser.get codeAddresses (pyStr "cfv_quote")
  let omitAddresses ← parser.get codeAddresses (pyStr "omit_addresses")
  let tracefile ← parser.get codeAddresses (pyStr "tracefile")
  pure ⟨loadAddress, textStart, textEnd, cfvInit, cfvQuote, omitAddresses, tracefile⟩

def hexValue (b : UInt8) : Option Nat :=
  if 0x30 ≤ b ∧ b ≤ 0x39 then some (b.toNat - 0x30)
  else if 0x61 ≤ b ∧ b ≤ 0x66 then some (b.toNat - 0x57)
  else if 0x41 ≤ b ∧ b ≤ 0x46 then some (b.toNat - 0x37)
  else none

def hexNumber (digits : List UInt8) : Option Nat :=
  digits.foldlM (fun n b => (hexValue b).map (16 * n + ·)) 0

/-- The sign, and what is behind it. -/
def signOf : List UInt8 → Int × List UInt8
  | 0x2d :: s => (-1, s)
  | 0x2b :: s => (1, s)
  | s => (1, s)

def dropPrefix : List UInt8 → List UInt8
  | 0x30 :: 0x78 :: s => s
  | 0x30 :: 0x58 :: s => s
  | s => s

/-- `int(s, 16)`. -/
def intBase16 (s : List UInt8) : Except MainError Int :=
  let (sign, s) := signOf (strip s)
  let digits := dropPrefix s
  if digits = [] then .error .valueError
  else
    match hexNumber digits with
    | some n => .ok (sign * n)
    | none => .error .valueError

/-- The command line; `config` is what the file of `-c` has, if there is
the option, and if it can be opened. -/
structure MainArgs where
  config : Option (Option (List UInt8))
  loadAddress : Option (List UInt8)
  textStart : Option (List UInt8)
  textEnd : Option (List UInt8)
  omitAddresses : Option (List UInt8)
deriving Repr, DecidableEq

def getReqOpt (argsValue configValue : Option (List UInt8)) : Except MainError (List UInt8) :=
  match argsValue, configValue with
  | some value, _ => .ok value
  | none, some value => .ok value
  | none, none => .error .exit

def getCsvOpt (argsValue configValue : Option (List UInt8)) : List (List UInt8) :=
  match argsValue, configValue with
  | some value, _ => value.splitOn 0x2c
  | none, some value => value.splitOn 0x2c
  | none, none => []

/-- `main`, up to the call of `hookit`. Without `-c` it looks up a name
that is not there. -/
def mainOpts (args : MainArgs) : Except MainError Opts :=
  match args.config with
  | none => .error .nameError
  | some file =>
      match readConfig file with
      | .error .missingSectionHeader => .error .exit
      | .error e => .error (.config e)
      | .ok config => do
          let loadAddress ← getReqOpt args.loadAddress config.loadAddress >>= intBase16
          let textStart ← getReqOpt args.textStart config.textStart >>= intBase16
          let textEnd ← getReqOpt args.textEnd config.textEnd >>= intBase16
          let cfvInit ← getReqOpt none config.cfvInit >>= intBase16
          let cfvQuote ← getReqOpt none config.cfvQuote >>= intBase16
          let omitAddresses ← (getCsvOpt args.omitAddresses config.omitAddresses).mapM intBase16
          pure ⟨loadAddress, textStart, textEnd, cfvInit, cfvQuote, omitAddresses⟩

/-! ## Reading what was written -/

structure ConfigDefaults.Plain (c : ConfigDefaults) : Prop where
  loadAddress : ConfigText.Plain c.loadAddress
  textStart : ConfigText.Plain c.textStart
  textEnd : ConfigText.Plain c.textEnd
  omitAddresses : ConfigText.Plain c.omitAddresses
  cfvInit : ConfigText.Plain c.cfvInit
  cfvQuote : ConfigText.Plain c.cfvQuote

/-- The options in the order they are written. -/
def ConfigDefaults.written (c : ConfigDefaults) : ConfigText.Written :=
  [(pyStr "load_address", 3, c.loadAddress), (pyStr "text_start", 5, c.textStart),
    (pyStr "text_end", 7, c.textEnd), (pyStr "cfv_init", 7, c.cfvInit),
    (pyStr "cfv_quote", 6, c.cfvQuote), (pyStr "omit_addresses", 1, c.omitAddresses)]

theorem ConfigDefaults.text_eq (c : ConfigDefaults) :
    c.text = ConfigText.fileText codeAddresses c.written := by
  simp only [text, written, ConfigText.fileText, List.flatMap_cons, List.flatMap_nil,
    List.append_assoc, List.append_nil]
  rfl

theorem isSection_codeAddresses : ConfigText.IsSection codeAddresses :=
  ⟨List.cons_ne_nil _ _, List.all_iff_forall_prop.mp rfl, by decide⟩

/-- The options that the script writes are names. -/
theorem isName_written (c : ConfigDefaults) : ∀ o ∈ c.written, ConfigText.IsName o.1 ∧ 0 < o.2.1 := by
  have key : ∀ name ∈ [pyStr "load_address", pyStr "text_start", pyStr "text_end", pyStr "cfv_init",
      pyStr "cfv_quote", pyStr "omit_addresses"], ConfigText.IsName name := by
    intro name hname
    simp only [List.mem_cons, List.not_mem_nil, or_false] at hname
    rcases hname with rfl | rfl | rfl | rfl | rfl | rfl <;>
      exact ⟨List.cons_ne_nil _ _, List.all_iff_forall_prop.mp rfl, rfl, by decide⟩
  simp only [ConfigDefaults.written, List.forall_mem_cons]
  refine ⟨⟨key _ ?_, Nat.succ_pos _⟩, ⟨key _ ?_, Nat.succ_pos _⟩, ⟨key _ ?_, Nat.succ_pos _⟩,
    ⟨key _ ?_, Nat.succ_pos _⟩, ⟨key _ ?_, Nat.succ_pos _⟩, ⟨key _ ?_, Nat.succ_pos _⟩,
    List.forall_mem_nil _⟩ <;> simp

theorem ConfigDefaults.Plain.written {c : ConfigDefaults} (h : c.Plain) :
    ConfigText.Written.Ok c.written := by
  have hvalue : ∀ o ∈ c.written, ConfigText.Plain o.2.2 := by
    simp only [ConfigDefaults.written, List.forall_mem_cons]
    exact ⟨h.loadAddress, h.textStart, h.textEnd, h.cfvInit, h.cfvQuote, h.omitAddresses,
      List.forall_mem_nil _⟩
  exact fun o ho => ⟨(isName_written c o ho).1, (isName_written c o ho).2, hvalue o ho⟩

theorem readConfig_text {c : ConfigDefaults} (h : c.Plain) :
    readConfig (some c.text) = .ok ⟨some c.loadAddress, some c.textStart, some c.textEnd,
      some c.cfvInit, some c.cfvQuote, some c.omitAddresses, none⟩ := by
  obtain ⟨r, hread, hdefaults, hsections⟩ :=
    ConfigText.read_options isSection_codeAddresses h.written veConfigDefaults
  have hdefault := isSection_codeAddresses.notDefault
  have hget : ∀ {name value : List UInt8}, ConfigText.lower name = name →
      (ConfigText.optionsOf codeAddresses c.written).lookup name = some value →
      ConfigText.Plain value → r.get codeAddresses name = .ok (some value) :=
    fun hname hlookup hplain => ConfigText.get_option hsections hdefault hname hlookup
      fun hmem => (hplain _ hmem).2.2.1 rfl
  have hnone : r.get codeAddresses (pyStr "tracefile") = .ok none :=
    ConfigText.get_default hsections hdefault rfl rfl (by rw [hdefaults]; rfl)
  rw [readConfig, Option.getD_some, c.text_eq, hread]
  simp only [bind, Except.bind, pure, Except.pure]
  rw [hget rfl rfl h.loadAddress, hget rfl rfl h.textStart, hget rfl rfl h.textEnd,
    hget rfl rfl h.cfvInit, hget rfl rfl h.cfvQuote, hget rfl rfl h.omitAddresses, hnone]

/-- The options of `hookit` that values stand for. -/
def ConfigDefaults.opts (c : ConfigDefaults) : Except MainError Opts := do
  let loadAddress ← intBase16 c.loadAddress
  let textStart ← intBase16 c.textStart
  let textEnd ← intBase16 c.textEnd
  let cfvInit ← intBase16 c.cfvInit
  let cfvQuote ← intBase16 c.cfvQuote
  let omitAddresses ← (c.omitAddresses.splitOn 0x2c).mapM intBase16
  pure ⟨loadAddress, textStart, textEnd, cfvInit, cfvQuote, omitAddresses⟩

/-- Values with those of a command line in front. -/
def ConfigDefaults.override (c : ConfigDefaults) (args : MainArgs) : ConfigDefaults :=
  { c with
    loadAddress := args.loadAddress.getD c.loadAddress
    textStart := args.textStart.getD c.textStart
    textEnd := args.textEnd.getD c.textEnd
    omitAddresses := args.omitAddresses.getD c.omitAddresses }

theorem mainOpts_text {c : ConfigDefaults} (h : c.Plain) {args : MainArgs}
    (hconfig : args.config = some (some c.text)) : mainOpts args = (c.override args).opts := by
  have hreq : ∀ (a : Option (List UInt8)) (value : List UInt8),
      getReqOpt a (some value) = .ok (a.getD value) := by
    intro a value
    cases a with
    | none => rfl
    | some _ => rfl
  have hcsv : ∀ (a : Option (List UInt8)) (value : List UInt8),
      getCsvOpt a (some value) = (a.getD value).splitOn 0x2c := by
    intro a value
    cases a with
    | none => rfl
    | some _ => rfl
  simp only [mainOpts, hconfig, readConfig_text h, hreq, hcsv, ConfigDefaults.opts,
    ConfigDefaults.override, Option.getD_none]
  rfl

/-! ## The patterns -/

section Patterns

open LinePattern

theorem isHex_of_isSpace {b : UInt8} (h : isSpace b = true) : isHex b = false := by
  simp only [isSpace, isHex, decide_eq_true_eq, Bool.or_eq_false_iff, Bool.and_eq_false_iff,
    decide_eq_false_iff_not, UInt8.le_iff_toNat_le, ← UInt8.toNat_inj] at h ⊢
  simp at h ⊢
  omega

theorem isSpace_of_isHex {b : UInt8} (h : isHex b = true) : isSpace b = false :=
  Bool.eq_false_iff.mpr fun hspace => by
    rw [isHex_of_isSpace hspace] at h
    cases h

theorem clear_literal {bs : List UInt8} {ps : List Piece} (h : Clear ps) :
    Clear (literal bs ++ ps) := by
  induction bs with
  | nil => exact h
  | cons b bs ih => exact ih

/-- Nothing of the class is the byte. -/
theorem apart_byte {p : UInt8 → Bool} {b : UInt8} (h : p b = false) :
    ∀ c, p c = true → (c == b) = false := by
  intro c hc
  refine beq_false_of_ne ?_
  rintro rfl
  rw [h] at hc
  cases hc

theorem clear_sectionPattern (name : String) : Clear (sectionPattern name) := by
  have hspaceHex : ∀ b, isSpace b = true → isHex b = false := fun b => isHex_of_isSpace
  refine ⟨apart_byte rfl, apart_byte rfl, clear_literal ⟨apart_byte rfl, clear_literal
    ⟨apart_byte rfl, clear_literal ⟨hspaceHex, ?_⟩⟩⟩⟩
  exact ⟨rfl, trivial⟩

theorem clear_callPattern (name : String) : Clear (callPattern name) := by
  have hspaceHex : ∀ b, isSpace b = true → isHex b = false := fun b => isHex_of_isSpace
  have hhexSpace : ∀ b, isHex b = true → isSpace b = false := fun b => isSpace_of_isHex
  exact ⟨hspaceHex, hspaceHex, hhexSpace, apart_byte rfl, clear_literal
    ⟨⟨by decide, hspaceHex⟩, apart_byte rfl, clear_literal rfl⟩⟩

/-- Six digits. -/
structure Digits (g : List UInt8) : Prop where
  length : g.length = 6
  hex : ∀ b ∈ g, isHex b = true

theorem digits_sectionPattern {name : String} {line g : List UInt8}
    (h : matchLine (sectionPattern name) line = some g) : Digits g := by
  have hps : sectionPattern name = (.many isSpace :: .one (· == 0x5b) ::
      .many (fun b => isSpace b || isDigit b) :: .one (· == 0x5d) :: .one isSpace ::
        (literal (pyStr name) ++ .many isSpace :: (literal (pyStr "PROGBITS") ++ .many isSpace ::
          literal (pyStr "0000000000")))) ++ .group 6 isHex :: [.many isSpace, .many isHex] := by
    simp only [sectionPattern, List.cons_append, List.append_assoc]
  rw [hps] at h
  obtain ⟨hlen, hhex⟩ := matchLine_group (by simp) h
  exact ⟨hlen, hhex⟩

theorem digits_callPattern {name : String} {line g : List UInt8}
    (h : matchLine (callPattern name) line = some g) : Digits g := by
  have hps : callPattern name = (.many isSpace :: (List.replicate 6 (.one isHex) ++
      .one (· == 0x3a) :: .many isSpace :: .many isHex :: .many isSpace ::
        (literal (pyStr "bl") ++ [.many isSpace]))) ++ .group 6 isHex :: .many isSpace ::
          (literal (pyStr "<" ++ pyStr name ++ pyStr "@plt>") ++ [.maybe isSpace]) := by
    simp only [callPattern, List.cons_append, List.append_assoc, List.nil_append]
  rw [hps] at h
  obtain ⟨hlen, hhex⟩ := matchLine_group (by simp [literal]) h
  exact ⟨hlen, hhex⟩

end Patterns

/-! ## Numbers -/

section Numbers

variable {digits : List UInt8}

theorem hexValue_of_isHex {b : UInt8} (h : isHex b = true) : ∃ n, hexValue b = some n := by
  rw [isHex, Bool.or_eq_true, Bool.and_eq_true, Bool.and_eq_true] at h
  simp only [decide_eq_true_eq] at h
  by_cases hdigit : 0x30 ≤ b ∧ b ≤ 0x39
  · exact ⟨_, if_pos hdigit⟩
  · refine ⟨b.toNat - 0x57, ?_⟩
    rw [hexValue, if_neg hdigit, if_pos (h.resolve_left hdigit)]

theorem hexNumber_of_isHex (h : ∀ b ∈ digits, isHex b = true) : ∃ n, hexNumber digits = some n := by
  have key : ∀ start, ∃ n, digits.foldlM (fun n b => (hexValue b).map (16 * n + ·)) start = some n := by
    induction digits with
    | nil => exact fun start => ⟨start, rfl⟩
    | cons b digits ih =>
        intro start
        obtain ⟨v, hv⟩ := hexValue_of_isHex (h b List.mem_cons_self)
        rw [List.foldlM_cons, hv]
        exact ih (fun c hc => h c (List.mem_cons_of_mem _ hc)) (16 * start + v)
  exact key 0

/-- What the script puts together from a match. -/
theorem intBase16_digits (h : Digits digits) :
    ∃ n, hexNumber digits = some n ∧ intBase16 (pyStr "0x" ++ digits) = .ok n := by
  obtain ⟨n, hn⟩ := hexNumber_of_isHex h.hex
  refine ⟨n, hn, ?_⟩
  have hspace : ∀ b ∈ pyStr "0x" ++ digits, isSpace b = false := by
    intro b hb
    rcases List.mem_append.mp hb with hb | hb
    · have hall : ∀ b ∈ pyStr "0x", isSpace b = false := List.all_iff_forall_prop.mp rfl
      exact hall b hb
    · exact isSpace_of_isHex (h.hex b hb)
  have hne : digits ≠ [] := by
    rintro rfl
    cases h.length
  have hsign : signOf (pyStr "0x" ++ digits) = (1, pyStr "0x" ++ digits) := rfl
  have hprefix : dropPrefix (pyStr "0x" ++ digits) = digits := rfl
  simp only [intBase16, strip_of_no_space hspace, hsign, hprefix, if_neg hne, hn, Int.one_mul]

theorem plain_digits (h : Digits digits) : ConfigText.Plain (pyStr "0x" ++ digits) := by
  intro b hb
  rcases List.mem_append.mp hb with hb | hb
  · have hall : ConfigText.Plain (pyStr "0x") := List.all_iff_forall_prop.mp rfl
    exact hall b hb
  · refine ⟨isSpace_of_isHex (h.hex b hb), ?_, ?_, ?_⟩ <;>
      · rintro rfl
        exact absurd (h.hex _ hb) (by decide)

end Numbers

/-! ## Listings -/

section Listings

open LinePattern

/-- The last line that the pattern is for, with its group. -/
def Listed (ps : List Piece) (file g : List UInt8) : Prop :=
  ∃ before line after, readlines file = before ++ line :: after ∧ Fits ps [] line g ∧
    ∀ l ∈ after, ∀ g', ¬Fits ps [] l g'

variable {ps : List Piece} {file g : List UInt8}

theorem foldl_unlisted (hclear : Clear ps) {lines : List (List UInt8)}
    (h : ∀ l ∈ lines, ∀ g', ¬Fits ps [] l g') (value : List UInt8) :
    lines.foldl (fun value line =>
      match matchLine ps line with
      | some g => pyStr "0x" ++ g
      | none => value) value = value := by
  induction lines with
  | nil => rfl
  | cons line lines ih =>
      have hnone : matchLine ps line = none := by
        rw [Option.eq_none_iff_forall_ne_some]
        exact fun g' heq => h line List.mem_cons_self g' ((matchLine_iff hclear).mp heq)
      rw [List.foldl_cons, hnone]
      exact ih fun l hl => h l (List.mem_cons_of_mem _ hl)

theorem lastMatch_listed (hclear : Clear ps) (h : Listed ps file g) (init : List UInt8) :
    lastMatch ps file init = pyStr "0x" ++ g := by
  obtain ⟨before, line, after, hlines, hfits, hafter⟩ := h
  rw [lastMatch, hlines, List.foldl_append, List.foldl_cons, (matchLine_iff hclear).mpr hfits]
  exact foldl_unlisted hclear hafter _

theorem lastMatch_cases (hclear : Clear ps) (file init : List UInt8) :
    (∃ g, Listed ps file g) ∨ ((∀ g, ¬Listed ps file g) ∧ lastMatch ps file init = init) := by
  have key : ∀ lines : List (List UInt8), (∀ l ∈ lines, ∀ g', ¬Fits ps [] l g') ∨
      ∃ before line after g, lines = before ++ line :: after ∧ Fits ps [] line g ∧
        ∀ l ∈ after, ∀ g', ¬Fits ps [] l g' := by
    intro lines
    induction lines with
    | nil => exact .inl (List.forall_mem_nil _)
    | cons line lines ih =>
        rcases ih with hnone | ⟨before, line', after, g, rfl, hfits, hafter⟩
        · by_cases hline : ∃ g, Fits ps [] line g
          · obtain ⟨g, hfits⟩ := hline
            exact .inr ⟨[], line, lines, g, rfl, hfits, hnone⟩
          · refine .inl (List.forall_mem_cons.mpr ⟨fun g' hfits => hline ⟨g', hfits⟩, hnone⟩)
        · exact .inr ⟨line :: before, line', after, g, rfl, hfits, hafter⟩
  rcases key (readlines file) with hnone | ⟨before, line, after, g, hlines, hfits, hafter⟩
  · refine .inr ⟨?_, foldl_unlisted hclear hnone init⟩
    rintro g ⟨before, line, after, hlines, hfits, -⟩
    refine hnone line ?_ g hfits
    rw [hlines]
    exact List.mem_append_right _ List.mem_cons_self
  · exact .inl ⟨g, before, line, after, hlines, hfits, hafter⟩

theorem Listed.section_digits {name : String} (h : Listed (sectionPattern name) file g) :
    Digits g := by
  obtain ⟨-, line, -, -, hfits, -⟩ := h
  exact digits_sectionPattern ((matchLine_iff (clear_sectionPattern name)).mpr hfits)

theorem Listed.call_digits {name : String} (h : Listed (callPattern name) file g) : Digits g := by
  obtain ⟨-, line, -, -, hfits, -⟩ := h
  exact digits_callPattern ((matchLine_iff (clear_callPattern name)).mpr hfits)

end Listings

/-! ## From the listings to the options -/

/-- With `-c` and the file only. -/
def MainArgs.ofFile (file : List UInt8) : MainArgs := ⟨some (some file), none, none, none, none⟩

/-- A value that is read as itself, and is a number. -/
structure Numeral (value : List UInt8) : Prop where
  plain : ConfigText.Plain value
  number : ∃ n, intBase16 value = .ok n

theorem Digits.numeral {digits : List UInt8} (h : Digits digits) :
    Numeral (pyStr "0x" ++ digits) := by
  obtain ⟨n, -, hn⟩ := intBase16_digits h
  exact ⟨plain_digits h, n, hn⟩

/-- The addresses that the script has when nothing is listed. -/
theorem numeral_configDefaults : Numeral configDefaults.loadAddress ∧
    Numeral configDefaults.textStart ∧ Numeral configDefaults.textEnd ∧
    Numeral configDefaults.cfvInit ∧ Numeral configDefaults.cfvQuote :=
  ⟨⟨List.all_iff_forall_prop.mp rfl, 0x400000, rfl⟩,
    ⟨List.all_iff_forall_prop.mp rfl, 0x400430, rfl⟩,
    ⟨List.all_iff_forall_prop.mp rfl, 0x400818, rfl⟩, ⟨List.all_iff_forall_prop.mp rfl, 0, rfl⟩,
    ⟨List.all_iff_forall_prop.mp rfl, 0, rfl⟩⟩

theorem intBase16_omitAddresses :
    ((pyStr "0x000000").splitOn 0x2c).mapM intBase16 = Except.ok [0] := rfl

section Listings

open LinePattern

variable {args : GenArgs} {dump file init : List UInt8}

theorem numeral_calls {name : String} (h : Numeral init) :
    Numeral (lastMatch (callPattern name) file init) := by
  rcases lastMatch_cases (clear_callPattern name) file init with ⟨g, hg⟩ | ⟨-, hinit⟩
  · rw [lastMatch_listed (clear_callPattern name) hg]
    exact hg.call_digits.numeral
  · rwa [hinit]

/-- A section that is not listed leaves the empty string. -/
theorem numeral_section_iff {name : String} :
    Numeral (lastMatch (sectionPattern name) file []) ↔ ∃ g, Listed (sectionPattern name) file g := by
  rcases lastMatch_cases (clear_sectionPattern name) file [] with ⟨g, hg⟩ | ⟨hnone, hinit⟩
  · rw [lastMatch_listed (clear_sectionPattern name) hg]
    exact iff_of_true hg.section_digits.numeral ⟨g, hg⟩
  · rw [hinit]
    refine iff_of_false (fun h => ?_) fun ⟨g, hg⟩ => hnone g hg
    obtain ⟨n, hn⟩ := h.number
    cases hn

theorem plain_section (name : String) (file : List UInt8) :
    ConfigText.Plain (lastMatch (sectionPattern name) file []) := by
  rcases lastMatch_cases (clear_sectionPattern name) file [] with ⟨g, hg⟩ | ⟨-, hinit⟩
  · rw [lastMatch_listed (clear_sectionPattern name) hg]
    exact plain_digits hg.section_digits
  · rw [hinit]
    exact fun b hb => absurd hb List.not_mem_nil

/-- The addresses given to the script are numbers. -/
structure GenArgs.Ok (args : GenArgs) : Prop where
  loadAddress : ∀ v, args.loadAddress = some v → Numeral v
  textStart : ∀ v, args.textStart = some v → Numeral v
  textEnd : ∀ v, args.textEnd = some v → Numeral v

theorem getD_of_forall {P : List UInt8 → Prop} {o : Option (List UInt8)} {v : List UInt8}
    (hsome : ∀ w, o = some w → P w) (hnone : o = none → P v) : P (o.getD v) := by
  cases o with
  | none => exact hnone rfl
  | some w => exact hsome w rfl

theorem plain_genConfig (hargs : args.Ok) (dump : List UInt8) : (genConfig args dump).Plain := by
  obtain ⟨hload, hstart, hend, hinit, hquote⟩ := numeral_configDefaults
  have hdefault : (genConfig args dump).omitAddresses = configDefaults.omitAddresses := rfl
  obtain ⟨ph, load, start, fin⟩ := args
  refine ⟨getD_of_forall (fun v hv => (hargs.loadAddress v hv).plain) fun _ => ?_,
    getD_of_forall (fun v hv => (hargs.textStart v hv).plain) fun _ => ?_,
    getD_of_forall (fun v hv => (hargs.textEnd v hv).plain) fun _ => ?_, ?_,
    (numeral_calls ?_).plain, (numeral_calls ?_).plain⟩
  · cases ph <;> exact hload.plain
  · cases ph with
    | none => exact hstart.plain
    | some ph => exact plain_section ".text" ph
  · cases ph with
    | none => exact hend.plain
    | some ph => exact plain_section ".fini" ph
  · exact hinit.plain
  · cases ph <;> exact hinit
  · cases ph <;> exact hquote

/-- The text section begins at `.text` and ends at `.fini`, and the hooks
are where the calls of them lead, all as listed last. -/
theorem mainOpts_listed {ph a b i q : List UInt8} (htext : Listed (sectionPattern ".text") ph a)
    (hfini : Listed (sectionPattern ".fini") ph b) (hinit : Listed (callPattern "cfv_init") dump i)
    (hquote : Listed (callPattern "cfv_quote") dump q) :
    ∃ textStart textEnd cfvInit cfvQuote : Nat,
      (hexNumber a = some textStart ∧ hexNumber b = some textEnd ∧ hexNumber i = some cfvInit ∧
        hexNumber q = some cfvQuote) ∧
      mainOpts (.ofFile (genConfig ⟨some ph, none, none, none⟩ dump).text) =
        .ok ⟨0x400000, textStart, textEnd, cfvInit, cfvQuote, [0]⟩ := by
  obtain ⟨textStart, ha, hstart⟩ := intBase16_digits htext.section_digits
  obtain ⟨textEnd, hb, hend⟩ := intBase16_digits hfini.section_digits
  obtain ⟨cfvInit, hi, hinit'⟩ := intBase16_digits hinit.call_digits
  obtain ⟨cfvQuote, hq, hquote'⟩ := intBase16_digits hquote.call_digits
  refine ⟨textStart, textEnd, cfvInit, cfvQuote, ⟨ha, hb, hi, hq⟩, ?_⟩
  have hgen : genConfig ⟨some ph, none, none, none⟩ dump =
      ⟨pyStr "0x400000", pyStr "0x" ++ a, pyStr "0x" ++ b, pyStr "0x000000", pyStr "0x" ++ i,
        pyStr "0x" ++ q⟩ := by
    simp only [genConfig, extractTextStartAndEndFromPh,
      lastMatch_listed (clear_sectionPattern _) htext, lastMatch_listed (clear_sectionPattern _) hfini,
      lastMatch_listed (clear_callPattern _) hinit, lastMatch_listed (clear_callPattern _) hquote]
    rfl
  have hload : intBase16 (pyStr "0x400000") = .ok 0x400000 := rfl
  rw [mainOpts_text (plain_genConfig ⟨by simp, by simp, by simp⟩ dump) rfl, hgen]
  simp only [ConfigDefaults.opts, ConfigDefaults.override, MainArgs.ofFile, Option.getD_none, hload,
    hstart, hend, hinit', hquote', intBase16_omitAddresses]
  rfl

def sampleText : List UInt8 := pyStr "  [11] .text  PROGBITS  0000000000400430  00000430\n"
def sampleFini : List UInt8 := pyStr "  [12] .fini  PROGBITS  0000000000400818  00000818\n"
def sampleInit : List UInt8 := pyStr "  400510:\t97ffffd4 \tbl\t400460 <cfv_init@plt>\n"
def sampleQuote : List UInt8 := pyStr "  400530:\t97ffffd0 \tbl\t400470 <cfv_quote@plt>\n"

/-- Two lines, of which the pattern matches the first. -/
theorem listed_first {ps : List Piece} (hclear : Clear ps) {line line' g : List UInt8}
    (hlines : readlines (line ++ line') = [line, line']) (hmatch : matchLine ps line = some g)
    (hnone : matchLine ps line' = none) : Listed ps (line ++ line') g := by
  refine ⟨[], line, [line'], hlines, (matchLine_iff hclear).mp hmatch, fun l hl g' hfits => ?_⟩
  rw [List.mem_singleton.mp hl] at hfits
  rw [(matchLine_iff hclear).mpr hfits] at hnone
  cases hnone

theorem listed_second {ps : List Piece} (hclear : Clear ps) {line line' g : List UInt8}
    (hlines : readlines (line ++ line') = [line, line']) (hmatch : matchLine ps line' = some g) :
    Listed ps (line ++ line') g :=
  ⟨[line], line', [], hlines, (matchLine_iff hclear).mp hmatch, List.forall_mem_nil _⟩

theorem mainOpts_listed_sample : ∃ textStart textEnd cfvInit cfvQuote : Nat,
    (hexNumber (pyStr "400430") = some textStart ∧ hexNumber (pyStr "400818") = some textEnd ∧
      hexNumber (pyStr "400460") = some cfvInit ∧ hexNumber (pyStr "400470") = some cfvQuote) ∧
    mainOpts (.ofFile (genConfig ⟨some (sampleText ++ sampleFini), none, none, none⟩
      (sampleInit ++ sampleQuote)).text) =
        .ok ⟨0x400000, textStart, textEnd, cfvInit, cfvQuote, [0]⟩ :=
  mainOpts_listed (listed_first (clear_sectionPattern _) rfl rfl rfl)
    (listed_second (clear_sectionPattern _) rfl rfl)
    (listed_first (clear_callPattern _) rfl rfl rfl)
    (listed_second (clear_callPattern _) rfl rfl)

theorem opts_ok_iff {c : ConfigDefaults} (hload : Numeral c.loadAddress)
    (hinit : Numeral c.cfvInit) (hquote : Numeral c.cfvQuote)
    (homit : c.omitAddresses = pyStr "0x000000") (hstart : ConfigText.Plain c.textStart)
    (hend : ConfigText.Plain c.textEnd) :
    (∃ opts, c.opts = .ok opts) ↔ Numeral c.textStart ∧ Numeral c.textEnd := by
  obtain ⟨load, hload⟩ := hload.number
  obtain ⟨init, hinit⟩ := hinit.number
  obtain ⟨quote, hquote⟩ := hquote.number
  simp only [ConfigDefaults.opts, hload, hinit, hquote, homit, intBase16_omitAddresses, bind,
    Except.bind, pure, Except.pure]
  constructor
  · rintro ⟨opts, hopts⟩
    split at hopts
    · cases hopts
    rename_i start hs
    split at hopts
    · cases hopts
    exact ⟨⟨hstart, start, hs⟩, ⟨hend, _, ‹_›⟩⟩
  · rintro ⟨⟨-, start, hs⟩, ⟨-, fin, he⟩⟩
    rw [hs, he]
    exact ⟨_, rfl⟩

/-- There are options unless a section that is looked up is not listed. -/
theorem mainOpts_genConfig_iff (hargs : args.Ok) (dump : List UInt8) :
    (∃ opts, mainOpts (.ofFile (genConfig args dump).text) = .ok opts) ↔
      ∀ ph, args.ph = some ph →
        (args.textStart = none → ∃ g, Listed (sectionPattern ".text") ph g) ∧
        (args.textEnd = none → ∃ g, Listed (sectionPattern ".fini") ph g) := by
  obtain ⟨hload, hstart, hend, hinit, hquote⟩ := numeral_configDefaults
  have hplain := plain_genConfig hargs dump
  have hsame : (genConfig args dump).override (.ofFile (genConfig args dump).text) =
      genConfig args dump := rfl
  have hloaded : Numeral (genConfig args dump).loadAddress :=
    getD_of_forall hargs.loadAddress fun _ => by cases args.ph <;> exact hload
  have hhooks : Numeral (genConfig args dump).cfvInit ∧ Numeral (genConfig args dump).cfvQuote := by
    refine ⟨numeral_calls ?_, numeral_calls ?_⟩
    · cases args.ph <;> exact hinit
    · cases args.ph <;> exact hquote
  rw [mainOpts_text hplain rfl, hsame, opts_ok_iff hloaded hhooks.1 hhooks.2 rfl hplain.textStart
    hplain.textEnd]
  cases hph : args.ph with
  | none =>
      refine iff_of_true ⟨getD_of_forall hargs.textStart fun _ => ?_,
        getD_of_forall hargs.textEnd fun _ => ?_⟩ (by simp)
      · rw [hph]
        exact hstart
      · rw [hph]
        exact hend
  | some ph =>
      have hs : Numeral (genConfig args dump).textStart ↔
          (args.textStart = none → ∃ g, Listed (sectionPattern ".text") ph g) := by
        rw [← numeral_section_iff, genConfig, hph]
        cases hstart : args.textStart with
        | none => simp [extractTextStartAndEndFromPh]
        | some v => simpa using hargs.textStart v hstart
      have he : Numeral (genConfig args dump).textEnd ↔
          (args.textEnd = none → ∃ g, Listed (sectionPattern ".fini") ph g) := by
        rw [← numeral_section_iff, genConfig, hph]
        cases hend : args.textEnd with
        | none => simp [extractTextStartAndEndFromPh]
        | some v => simpa using hargs.textEnd v hend
      rw [hs, he]
      simp

/-- Without listings, the addresses of the script are numbers. -/
theorem mainOpts_genConfig_iff_default :
    (∃ opts, mainOpts (.ofFile (genConfig ⟨none, none, none, none⟩ []).text) = .ok opts) ↔
      ∀ ph, (none : Option (List UInt8)) = some ph →
        ((none : Option (List UInt8)) = none → ∃ g, Listed (sectionPattern ".text") ph g) ∧
        ((none : Option (List UInt8)) = none → ∃ g, Listed (sectionPattern ".fini") ph g) :=
  mainOpts_genConfig_iff ⟨by simp, by simp, by simp⟩ []

end Listings

end Ve

end Oat
