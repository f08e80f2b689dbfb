/-
# `Cli.Options` — the words of a command line

A word is read by its shape alone: an option is known by its name or by the
beginning of exactly one long name, and may carry a value behind an equals
sign; single letters may be joined behind one dash.  A negative number, and any
word with a space that is no option, is an operand.  All words behind a double
dash are operands.

Then the words are taken from left to right.  The first run of operands is the
list of paths, and everything that finds no use is refused at the end, unless
something was wrong before.

* `readWord` — how a word is read.
* `takeWords` — what the words say.
* `Options.ofArguments` — the options of a command line.
-/
import SyntaxChunks.Number.Reading
import SyntaxChunks.Text.Digit
import SyntaxChunks.Text.Quoted

namespace SyntaxChunks.Cli

open Number (Binary64)

/-! ## The options there are -/

/-- What an option is about. -/
inductive Key where
  | help
  | maxChars
  | windowLines
  | overlapLines
  | timeout
  | splitLeaves
  | workers
  | chunks
  | verbose
deriving DecidableEq, Repr

/-- An option: its names, and whether it takes a value. -/
structure OptionSpec where
  key : Key
  names : List String
  takesValue : Bool
deriving DecidableEq, Repr

/-- The options.  Those with a name of one letter take no value. -/
def optionSpecs : List OptionSpec :=
  [⟨.help, ["-h", "--help"], false⟩, ⟨.maxChars, ["--max-chars"], true⟩,
    ⟨.windowLines, ["--window-lines"], true⟩, ⟨.overlapLines, ["--overlap-lines"], true⟩,
    ⟨.timeout, ["--timeout"], true⟩, ⟨.splitLeaves, ["--split-leaves"], false⟩,
    ⟨.workers, ["--workers"], true⟩, ⟨.chunks, ["--chunks"], false⟩,
    ⟨.verbose, ["--verbose", "-v"], false⟩]

/-- Every name with its option. -/
def optionNames : List (String × OptionSpec) :=
  optionSpecs.flatMap fun spec => spec.names.map fun name => (name, spec)

/-- The option of a name. -/
def specOf? (name : Text) : Option OptionSpec :=
  (optionNames.find? fun n => n.1 == name).map Prod.snd

/-- What is wrong with a command line. -/
inductive UsageError where
  | ambiguous (word : Text) (candidates : List String)
  | valueMissing (spec : OptionSpec)
  | valueUnused (spec : OptionSpec) (value : Text)
  | notInteger (spec : OptionSpec) (value : Text)
  | notNumber (spec : OptionSpec) (value : Text)
  | pathsMissing
  | unrecognized (words : List Text)
deriving DecidableEq, Repr

/-- The text of the error. -/
def UsageError.message : UsageError → Text
  | .ambiguous word candidates =>
    "ambiguous option: " ++ word ++ " could match " ++ ", ".intercalate candidates
  | .valueMissing spec => about spec "expected one argument"
  | .valueUnused spec value => about spec ("ignored explicit argument " ++ Text.quoted value)
  | .notInteger spec value => about spec ("invalid int value: " ++ Text.quoted value)
  | .notNumber spec value => about spec ("invalid float value: " ++ Text.quoted value)
  | .pathsMissing => "the following arguments are required: paths"
  | .unrecognized words => "unrecognized arguments: " ++ List.intercalate " " words
where
  about (spec : OptionSpec) (what : String) : String :=
    "argument " ++ "/".intercalate spec.names ++ ": " ++ what

/-! ## Words -/

/-- The word that ends the options. -/
def doubleDash : Text := "--"

/-- How a word is read.  What is attached to the name of an option is marked if
it stands behind an equals sign. -/
inductive Reading where
  | operand
  | separator
  | option (spec : OptionSpec) (name : Text) (attached : Option (Bool × Text))
  | unknown
deriving DecidableEq, Repr

/-- Is the reading that of an operand, or of the double dash before them? -/
def Reading.isOperand : Reading → Bool
  | .operand => true
  | .separator => true
  | _ => false

/-- The text before the first equals sign, and the one behind it. -/
def splitEquals (t : Text) : Text × Option (Bool × Text) :=
  let name := t.takeWhile (· != .char '=')
  match t.dropWhile (· != .char '=') with
  | [] => (name, none)
  | _ :: value => (name, some (true, value))

/-- Does the text begin with the other one? -/
def beginsWith (text start : Text) : Bool :=
  start.isPrefixOf text

/-- The options that a word without an option's name may stand for. -/
def candidates (word : Text) : List (String × Reading) :=
  let (name, value) := splitEquals word
  if beginsWith word "--" then
    optionNames.filterMap fun n =>
      if beginsWith n.1 name then some (n.1, .option n.2 n.1 value) else none
  else
    optionNames.filterMap fun n =>
      if n.1 == word.take 2 then some (n.1, .option n.2 n.1 (some (false, word.drop 2)))
      else if beginsWith n.1 word then some (n.1, .option n.2 n.1 none)
      else none

/-- Is the word a negative number: a dash and digits, or a dash and digits
behind a point that may have digits before it? -/
def isNegativeNumber : Text → Bool
  | .char '-' :: rest =>
    let isDigit := fun c => (Text.digitValue? c).isSome
    let body := if rest.getLast? == some (.char '\n') then rest.dropLast else rest
    match body.dropWhile isDigit with
    | [] => !body.isEmpty
    | .char '.' :: behind => !behind.isEmpty && behind.all isDigit
    | _ => false
  | _ => false

/-- How a word before the double dash is read. -/
def readWord (word : Text) : Except UsageError Reading :=
  match word with
  | .char '-' :: _ :: _ =>
    match specOf? word with
    | some spec => .ok (.option spec word none)
    | none =>
      let (name, value) := splitEquals word
      match specOf? name, value with
      | some spec, some _ => .ok (.option spec name value)
      | _, _ =>
        match candidates word with
        | [] =>
          .ok (if isNegativeNumber word || word.contains ' ' then .operand else .unknown)
        | [only] => .ok only.2
        | several => .error (.ambiguous word (several.map Prod.fst))
  | _ => .ok .operand

/-- The words with their readings. -/
def readWords : List Text → Except UsageError (List (Text × Reading))
  | [] => .ok []
  | word :: rest =>
    if word == doubleDash then .ok ((word, .separator) :: rest.map fun w => (w, .operand))
    else do
      let reading ← readWord word
      return (word, reading) :: (← readWords rest)

/-! ## What the words say -/

/-- The options of a command line. -/
structure Options where
  paths : List Text := []
  maxChars : Option Int := none
  windowLines : Option Int := none
  overlapLines : Option Int := none
  timeout : Option Binary64 := none
  splitLeaves : Bool := false
  workers : Int := 8
  chunks : Bool := false
  verbose : Bool := false
deriving DecidableEq, Repr

/-- Why no options come of a command line: help was asked for, or something is
wrong with it. -/
inductive Halt where
  | help
  | misuse (error : UsageError)
deriving DecidableEq, Repr

/-- The options with a flag set. -/
def Options.setFlag (o : Options) (spec : OptionSpec) : Except Halt Options :=
  match spec.key with
  | .help => .error .help
  | .splitLeaves => .ok { o with splitLeaves := true }
  | .chunks => .ok { o with chunks := true }
  | .verbose => .ok { o with verbose := true }
  | _ => .ok o

/-- The options with a value set. -/
def Options.setValue (o : Options) (spec : OptionSpec) (value : Text) : Except Halt Options :=
  let int := ((Number.readInt? value).elim (.error (.misuse (.notInteger spec value))) .ok)
  match spec.key with
  | .maxChars => do return { o with maxChars := some (← int) }
  | .windowLines => do return { o with windowLines := some (← int) }
  | .overlapLines => do return { o with overlapLines := some (← int) }
  | .workers => do return { o with workers := ← int }
  | .timeout =>
    match Number.readBinary64? value with
    | some t => .ok { o with timeout := some t }
    | none => .error (.misuse (.notNumber spec value))
  | _ => .ok o

/-- The flags of the letters that are attached to a flag, and the letters from
the first on that names no flag. -/
def joinedFlags (spec : OptionSpec) (behindEquals : Bool) :
    Text → Except UsageError (List OptionSpec × Text)
  | [] => .error (.valueUnused spec "")
  | c :: cs =>
    if behindEquals || c == '-' then .error (.valueUnused spec (c :: cs))
    else
      match specOf? ['-', c], cs with
      | none, _ => .ok ([], c :: cs)
      | some next, [] => .ok ([next], [])
      | some next, .char '=' :: value => do
        let (flags, rest) ← joinedFlags next true value
        return (next :: flags, rest)
      | some next, d :: value => do
        let (flags, rest) ← joinedFlags next false (d :: value)
        return (next :: flags, rest)

/-- What was made of the words so far: the options, whether the paths were
among them, and the words of no use. -/
structure Progress where
  options : Options := {}
  hasPaths : Bool := false
  unused : List Text := []

/-- A flag and what is attached to it. -/
def Progress.takeFlag (p : Progress) (spec : OptionSpec) (name : Text) :
    Option (Bool × Text) → Except Halt Progress
  | none => do return { p with options := ← p.options.setFlag spec }
  | some (behindEquals, text) =>
    if beginsWith name "--" then .error (.misuse (.valueUnused spec text))
    else do
      let (flags, rest) ← (joinedFlags spec behindEquals text).mapError .misuse
      let options ← (spec :: flags).foldlM Options.setFlag p.options
      let unused : List Text := if rest.isEmpty then [] else ['-' :: rest]
      return { p with options := options, unused := p.unused ++ unused }

/-- A run of operands: the paths, if there were none yet and there is an operand
among them. -/
def Progress.takeRun (p : Progress) (run : List (Text × Reading)) : Progress :=
  if !p.hasPaths && run.any (fun w => w.2 == .operand) then
    { p with
      hasPaths := true
      options := { p.options with paths := (run.map Prod.fst).erase doubleDash } }
  else { p with unused := p.unused ++ run.map Prod.fst }

/-- What some words say behind others. -/
def takeWords (p : Progress) : List (Text × Reading) → Except Halt Progress
  | [] => .ok p
  | (word, reading) :: rest =>
    match reading with
    | .unknown => takeWords { p with unused := p.unused ++ [word] } rest
    | .option spec name attached =>
      if spec.takesValue then
        match attached with
        | some (_, value) => do
          takeWords { p with options := ← p.options.setValue spec value } rest
        | none =>
          match rest with
          | (value, .operand) :: behind => do
            takeWords { p with options := ← p.options.setValue spec value } behind
          | _ => .error (.misuse (.valueMissing spec))
      else do takeWords (← p.takeFlag spec name attached) rest
    | reading =>
      takeWords (p.takeRun ((word, reading) :: rest.takeWhile fun w => w.2.isOperand))
        (rest.dropWhile fun w => w.2.isOperand)
termination_by words => words.length
decreasing_by
  · exact Nat.lt_succ_self _
  · exact Nat.lt_succ_self _
  · simp only [List.length_cons]; omega
  · exact Nat.lt_succ_self _
  · exact Nat.lt_succ_of_le (List.dropWhile_sublist _).length_le

/-- The options of a command line. -/
def Options.ofArguments (arguments : List Text) : Except Halt Options := do
  let words ← (readWords arguments).mapError .misuse
  let p ← takeWords {} words
  if !p.hasPaths then .error (.misuse .pathsMissing)
  else if !p.unused.isEmpty then .error (.misuse (.unrecognized p.unused))
  else return p.options

end SyntaxChunks.Cli
