/-
# `Config` — the settings of a run

`Settings` are five values as somebody asked for them.  `Settings.check` makes
a `Config` of them, in which they are known to make sense; the first setting
that does not is the error.  `Settings.ofEnvironment` reads settings from
environment variables, over which values given otherwise win.
-/
import SyntaxChunks.Number.Reading
import SyntaxChunks.Text.Lower
import SyntaxChunks.Text.Quoted
import SyntaxChunks.Windows

namespace SyntaxChunks

open Number (Binary64)

/-- The environment variables that hold settings. -/
inductive Variable where
  | maxChunkChars
  | windowLines
  | overlapLines
  | parseTimeout
  | splitLeaves
deriving DecidableEq, Repr

/-- The name of a variable. -/
def Variable.name : Variable → String
  | .maxChunkChars => "TREECHUNK_MAX_CHUNK_CHARS"
  | .windowLines => "TREECHUNK_FALLBACK_WINDOW_LINES"
  | .overlapLines => "TREECHUNK_FALLBACK_OVERLAP_LINES"
  | .parseTimeout => "TREECHUNK_PARSE_TIMEOUT_S"
  | .splitLeaves => "TREECHUNK_SPLIT_OVERSIZED_LEAVES"

/-- Why settings make no configuration. -/
inductive ConfigError where
  | budgetNotPositive
  | windowLinesNotPositive
  | overlapOutOfRange
  | timeoutNegative
  | notInteger (source : Variable) (text : Text)
  | notNumber (source : Variable) (text : Text)
  | notBoolean (source : Variable) (text : Text)
deriving DecidableEq, Repr

/-- The text of the error. -/
def ConfigError.message : ConfigError → String
  | .budgetNotPositive => "max_chunk_chars must be positive"
  | .windowLinesNotPositive => "fallback_window_lines must be positive"
  | .overlapOutOfRange => "fallback_overlap_lines must be in [0, fallback_window_lines)"
  | .timeoutNegative => "parse_timeout_s must be non-negative"
  | .notInteger source text => s!"{source.name} must be an integer, got {Text.quoted text}"
  | .notNumber source text => s!"{source.name} must be a number, got {Text.quoted text}"
  | .notBoolean source text => s!"{source.name} must be a boolean, got {Text.quoted text}"

/-- What a run works by: the greatest size of a chunk in bytes, the windows for
documents that no grammar reads, how many seconds a parse may take, and
whether leaves over the greatest size are cut. -/
structure Config where
  budget : Nat
  window : LineWindow
  timeout : Option Binary64
  splitLeaves : Bool
  budget_pos : 0 < budget
  timeout_nonneg : (timeout.any Binary64.isNegative) = false
deriving DecidableEq, Repr

/-- The configuration that is used unless told otherwise. -/
def Config.standard : Config where
  budget := 1500
  window := .standard
  timeout := some (.ofInt 5)
  splitLeaves := false
  budget_pos := by decide
  timeout_nonneg := by decide

/-- The five values of a configuration before they are checked. -/
structure Settings where
  maxChunkChars : Int := Config.standard.budget
  windowLines : Int := Config.standard.window.lines
  overlapLines : Int := Config.standard.window.overlap
  parseTimeout : Option Binary64 := Config.standard.timeout
  splitLeaves : Bool := Config.standard.splitLeaves
deriving DecidableEq, Repr

namespace Settings

/-- The window of two settings. -/
def checkWindow (windowLines overlapLines : Int) : Except ConfigError LineWindow :=
  match LineWindow.of? windowLines overlapLines with
  | .ok window => .ok window
  | .error .linesNotPositive => .error .windowLinesNotPositive
  | .error .overlapOutOfRange => .error .overlapOutOfRange

/-- The configuration of the settings. -/
def check (s : Settings) : Except ConfigError Config :=
  if positive : 0 < s.maxChunkChars.toNat then
    match checkWindow s.windowLines s.overlapLines with
    | .error e => .error e
    | .ok window =>
      match nonneg : s.parseTimeout.any Binary64.isNegative with
      | true => .error .timeoutNegative
      | false =>
        .ok ⟨s.maxChunkChars.toNat, window, s.parseTimeout, s.splitLeaves, positive, nonneg⟩
  else .error .budgetNotPositive

end Settings

/-! ## Settings from the environment -/

/-- The values of environment variables. -/
abbrev Environment := String → Option Text

/-- Settings given otherwise than by the environment. -/
structure Overrides where
  maxChunkChars : Option Int := none
  windowLines : Option Int := none
  overlapLines : Option Int := none
  parseTimeout : Option Binary64 := none
  splitLeaves : Option Bool := none
deriving DecidableEq, Repr

/-- The truth value that a word writes. -/
def readBool? (text : Text) : Option Bool :=
  let word := Text.lower text
  let yes : List Text := ["1", "true", "yes", "on"]
  let no : List Text := ["0", "false", "no", "off"]
  if yes.contains word then some true
  else if no.contains word then some false
  else none

/-- The value of a variable, if it is set and not blank. -/
def Environment.value? {α : Type} (env : Environment) (source : Variable)
    (read? : Text → Option α) (wrong : Variable → Text → ConfigError) :
    Except ConfigError (Option α) :=
  let text := Text.strip ((env source.name).getD "")
  if text.isEmpty then .ok none
  else
    match read? text with
    | some value => .ok (some value)
    | none => .error (wrong source text)

/-- The settings of an environment, with the given ones in their place.  Every
variable is read, also one whose value is not used. -/
def Settings.ofEnvironment (env : Environment) (given : Overrides) :
    Except ConfigError Settings := do
  let maxChunkChars ← env.value? .maxChunkChars Number.readInt? .notInteger
  let windowLines ← env.value? .windowLines Number.readInt? .notInteger
  let overlapLines ← env.value? .overlapLines Number.readInt? .notInteger
  let parseTimeout ← env.value? .parseTimeout Number.readBinary64? .notNumber
  let splitLeaves ← env.value? .splitLeaves readBool? .notBoolean
  let standard : Settings := {}
  return {
    maxChunkChars := (given.maxChunkChars <|> maxChunkChars).getD standard.maxChunkChars
    windowLines := (given.windowLines <|> windowLines).getD standard.windowLines
    overlapLines := (given.overlapLines <|> overlapLines).getD standard.overlapLines
    parseTimeout := given.parseTimeout <|> parseTimeout <|> standard.parseTimeout
    splitLeaves := (given.splitLeaves <|> splitLeaves).getD standard.splitLeaves }

/-- The configuration of an environment and the settings given otherwise. -/
def Config.ofEnvironment (env : Environment) (given : Overrides) : Except ConfigError Config := do
  (← Settings.ofEnvironment env given).check

end SyntaxChunks
