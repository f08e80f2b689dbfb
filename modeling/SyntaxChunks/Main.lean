/-
# `Main` — the program

Reads the files that the command line or the environment may name, hands all to
`Cli.run`, and prints what comes of it.  No parser is built in, so every file
is cut into windows of lines.
-/
import SyntaxChunks.Cli.Run

namespace SyntaxChunks

/-- The environment variables that a run asks for. -/
def variableNames : List String :=
  Registry.tableVariable :: [Variable.maxChunkChars, .windowLines, .overlapLines, .parseTimeout,
    .splitLeaves].map Variable.name

/-- The number of a fault, which the system may hand over with its sign
turned. -/
def systemNumber (n : UInt32) : Nat :=
  if n < 0x80000000 then n.toNat else (0 - n).toNat

/-- The fault that an input error stands for. -/
def faultOf : IO.Error → ReadFault
  | .noFileOrDirectory .. => .missing
  | .inappropriateType _ number _ =>
    if systemNumber number = ReadFault.isFolder.number then .isFolder else .notFolder
  | .otherError number reason => .notOpened (systemNumber number) reason
  | .permissionDenied _ number reason => .notOpened (systemNumber number) reason
  | .hardwareFault number reason => .stopped (systemNumber number) reason
  | e => .notOpened 5 (toString e)

/-- The contents of a path, or the fault of reading it. -/
def readPath (path : Path) : IO (Except ReadFault Contents) := do
  match path.text.chars? with
  | none => return .error .missing
  | some cs =>
    match ← (IO.FS.readBinFile (String.ofList cs)).toBaseIO with
    | .ok bytes => return .ok bytes.data
    | .error e => return .error (faultOf e)

/-- The paths that a run on a command line may read. -/
def readablePaths (env : Environment) (arguments : List Text) : List Path :=
  let table := Text.strip ((env Registry.tableVariable).getD "")
  match Cli.Options.ofArguments arguments with
  | .ok o => (table :: o.paths).map Path.ofText
  | .error _ => []

end SyntaxChunks

open SyntaxChunks

/-- The program. -/
def main (arguments : List String) : IO UInt32 := do
  let values ← variableNames.mapM fun name => return (name, ← IO.getEnv name)
  let env : Environment := fun name =>
    (values.find? fun v => v.1 == name).bind fun v => v.2.map Text.ofString
  let arguments := arguments.map Text.ofString
  let read ← (readablePaths env arguments).mapM fun path => return (path, ← readPath path)
  let files : FileSystem := fun path =>
    ((read.find? fun r => r.1 == path).map Prod.snd).getD (.error .missing)
  match Cli.run env files (fun name => .error ("no grammar " ++ name)) .utf8 arguments with
  | .error failure =>
    IO.eprintln failure.message.escaped
    return 1
  | .ok outcome =>
    for line in outcome.log do
      IO.eprintln line.text.escaped
    if let some e := outcome.usageError then
      IO.eprintln e.line.escaped
    IO.print outcome.printed.escaped
    return outcome.exit.toUInt32
