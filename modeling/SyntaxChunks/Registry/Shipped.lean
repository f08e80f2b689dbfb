/-
# `Registry.Shipped` — the languages that are known without a table

Broad markup languages come last: their grammars accept almost any text, and
would otherwise be taken before a more specific one.  Every grammar has the
name of its language.
-/
import SyntaxChunks.Registry.Table

namespace SyntaxChunks.Registry

/-- Names, extensions and error positions. -/
def shippedLanguages : List (Text × List Text × ErrorPosition) :=
  [("python", ["py", "pyi", "pyw"], .both),
  ("java", ["java"], .both),
  ("kotlin", ["kt", "kts"], .both),
  ("go", ["go"], .both),
  ("rust", ["rs"], .both),
  ("cpp", ["cpp", "cc", "cxx", "hpp", "hh", "hxx"], .both),
  ("c", ["c", "h"], .both),
  ("csharp", ["cs", "csx"], .both),
  ("typescript", ["ts", "mts", "cts"], .both),
  ("tsx", ["tsx"], .both),
  ("javascript", ["js", "jsx", "mjs", "cjs"], .both),
  ("php", ["php"], .both),
  ("ruby", ["rb", "rake", "gemspec"], .both),
  ("swift", ["swift"], .both),
  ("scala", ["scala", "sc"], .both),
  ("dart", ["dart"], .both),
  ("lua", ["lua"], .both),
  ("elixir", ["ex", "exs"], .both),
  ("haskell", ["hs"], .both),
  ("bash", ["sh", "bash", "zsh"], .both),
  ("json", ["json", "jsonl", "ndjson", "arb"], .root),
  ("yaml", ["yaml", "yml"], .both),
  ("toml", ["toml", "lock"], .both),
  ("css", ["css"], .both),
  ("xml", ["xml", "plist", "svg", "xib", "storyboard"], .both),
  ("html", ["html", "htm"], .root),
  ("markdown", ["md", "markdown"], .both)]

/-- The registry of these languages. -/
def shipped : Except TableError Registry :=
  (of? (shippedLanguages.map fun l => ⟨l.1, .grammar l.1, l.2.1, l.2.2.text⟩)).mapError .refused

/-- The environment variable that names another table. -/
def tableVariable : String := "TREECHUNK_LANGUAGES_PATH"

/-- The registry in use: of the table that the environment names, or the
shipped one. -/
def ofEnvironment (env : String → Option Text) (files : FileSystem) :
    Except TableError Registry :=
  let path := Text.strip ((env tableVariable).getD "")
  if path.isEmpty then shipped else ofFile files path

/-- The registries in use under one environment after the other, when `kept` is
the one kept so far: the first that can be read stays. -/
def inTurn (files : FileSystem) (kept : Option Registry) :
    List (String → Option Text) → List (Except TableError Registry)
  | [] => []
  | env :: rest =>
    let found := kept.elim (ofEnvironment env files) .ok
    found :: inTurn files found.toOption rest

end SyntaxChunks.Registry
