/-
# `Log` — what the program says about its work
-/
import SyntaxChunks.Text.CodePoint

namespace SyntaxChunks.Log

/-- How much a line matters. -/
inductive Level where
  | debug
  | info
  | warning
  | error
deriving DecidableEq, Repr

/-- The name of a level. -/
def Level.text : Level → String
  | .debug => "DEBUG"
  | .info => "INFO"
  | .warning => "WARNING"
  | .error => "ERROR"

/-- The part of the program that a line is about. -/
inductive Source where
  | program
  | chunking
  | selection
  | packing
  | windows
deriving DecidableEq, Repr

/-- The program's name. -/
def programName : String := "treechunk"

/-- The name of a source. -/
def Source.text : Source → String
  | .program => programName
  | .chunking => programName ++ ".chunker"
  | .selection => programName ++ ".language_selector"
  | .packing => programName ++ ".packing"
  | .windows => programName ++ ".fallback"

/-- A line of the log. -/
structure Line where
  level : Level
  source : Source
  message : Text
deriving DecidableEq, Repr

/-- The line as it is written. -/
def Line.text (l : Line) : Text :=
  l.level.text ++ " " ++ l.source.text ++ ": " ++ l.message

/-- Is the line written?  Lines for debugging only are written on request. -/
def Line.isShown (verbose : Bool) (l : Line) : Bool :=
  verbose || l.level != .debug

end SyntaxChunks.Log
