/-
# `Registry.Table` — registries written as JSON tables

A table is an object with a list of languages.  Each language is an object
with a name; its grammar has the same name unless told otherwise, and its
extensions, of which there may be none, are normalized.  Names, grammars and
error positions are taken as they are displayed, whatever values they are.
The languages and the extensions are walked through like any sequence: a
string by its characters, an object by its keys.
-/
import SyntaxChunks.Files
import SyntaxChunks.Json.Reader
import SyntaxChunks.Registry
import SyntaxChunks.Text.Utf8

namespace SyntaxChunks

/-- Why a table makes no registry. -/
inductive TableError where
  | unreadable (cause : ReadError)
  | notUtf8
  | notJson (cause : JsonError)
  | notATable
  | notASequence
  | notALanguage
  | nameMissing
  | notAnExtension
  | refused (cause : RegistryError)
deriving DecidableEq, Repr

/-- The text of the error. -/
def TableError.message : TableError → Text
  | .unreadable cause => cause.message
  | .notUtf8 => "the table is not UTF-8"
  | .notJson .malformed => "the table is not JSON"
  | .notJson .tooDeep => "the table is nested too deeply"
  | .notJson (.tooManyDigits count) =>
    s!"Exceeds the limit ({Number.digitLimit} digits) for integer string conversion: "
      ++ s!"value has {count} digits; use sys.set_int_max_str_digits() to increase the limit"
  | .notATable => "the table is not an object"
  | .notASequence => "a value in place of a sequence"
  | .notALanguage => "a value in place of a language"
  | .nameMissing => Text.quoted "name"
  | .notAnExtension => "a value in place of an extension"
  | .refused cause => cause.message

namespace Registry

/-- The items of a value that is walked through. -/
def itemsOf : Json → Except TableError (List Json)
  | .arr items => .ok items
  | .str t => .ok (t.map fun c => .str [c])
  | .obj members => .ok (members.map fun m => .str m.1)
  | _ => .error .notASequence

/-- Is the value nothing: null, false, zero, or empty? -/
def isNothing : Json → Bool
  | .null => true
  | .bool value => !value
  | .int value => value == 0
  | .float value => value.isZero
  | .str value => value.isEmpty
  | .arr items => items.isEmpty
  | .obj members => members.isEmpty

/-- A normalized extension. -/
def readExtension : Json → Except TableError Text
  | .str t => .ok (normalizeExtension t)
  | v => if isNothing v then .ok "" else .error .notAnExtension

/-- A language of a table. -/
def readLanguage : Json → Except TableError EntryDraft
  | .obj members => do
    let name ←
      match Json.get? "name" members with
      | some v => .ok v.display
      | none => .error .nameMissing
    let grammar := ((Json.get? "grammar" members).map Json.display).getD name
    let extensions ← itemsOf ((Json.get? "extensions" members).getD (.arr []))
    return {
      name := name
      provider := .grammar grammar
      extensions := ← extensions.mapM readExtension
      errorPosition :=
        ((Json.get? "error_position" members).map Json.display).getD ErrorPosition.both.text }
  | _ => .error .notALanguage

/-- The registry of a table. -/
def ofTable : Json → Except TableError Registry
  | .obj members => do
    let languages ← itemsOf ((Json.get? "languages" members).getD (.arr []))
    let drafts ← languages.mapM readLanguage
    (of? drafts).mapError .refused
  | _ => .error .notATable

/-- The registry of the text of a table. -/
def ofContents (contents : Contents) : Except TableError Registry := do
  match Text.Utf8.decodeStrict? contents with
  | none => .error .notUtf8
  | some cs => ofTable (← (Json.parse (Text.ofChars cs)).mapError .notJson)

/-- The registry of the table in a file. -/
def ofFile (files : FileSystem) (path : Text) : Except TableError Registry := do
  ofContents (← (files.read path).mapError .unreadable)

end Registry

end SyntaxChunks
