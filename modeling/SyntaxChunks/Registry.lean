/-
# `Registry` — languages in the order in which they are tried

An entry names a language, says where its trees come from and which extensions
it claims, and where an error mark in a tree tells that the text is of another
language.  No two entries of a registry have one name.

* `Registry.of?` — the registry of some drafts, or the first fault among them.
* `Registry.entryFor?` — the first entry that claims an extension.
* `Registry.prioritized` — the entries with that one moved to the front.
-/
import SyntaxChunks.Extension
import SyntaxChunks.Provider

namespace SyntaxChunks

/-- The nodes of a tree at which an error mark is looked for. -/
inductive ErrorPosition where
  | root
  | firstChild
  | both
deriving DecidableEq, Repr

namespace ErrorPosition

/-- The name of a position. -/
def text : ErrorPosition → String
  | .root => "root"
  | .firstChild => "first_child"
  | .both => "both"

/-- The position that a text names. -/
def ofText? (t : Text) : Option ErrorPosition :=
  [root, firstChild, both].find? fun p => p.text == t

/-- Is the root looked at? -/
def looksAtRoot : ErrorPosition → Bool
  | .firstChild => false
  | _ => true

/-- Is the first child looked at? -/
def looksAtFirstChild : ErrorPosition → Bool
  | .root => false
  | _ => true

end ErrorPosition

/-- Does a tree pass for a text of the language?  It has to have a root, and
neither the root nor its first child may stand for unreadable text where that
is looked for; a position of `none` looks at nothing. -/
def isSuccessfulParse (position : Option ErrorPosition) : Option Node → Bool
  | none => false
  | some root =>
    !((position.any ErrorPosition.looksAtRoot && root.isError) ||
      (position.any ErrorPosition.looksAtFirstChild && root.children.head?.any Node.isError))

/-- A language of a registry. -/
structure Entry where
  name : Text
  provider : Provider
  extensions : List Text
  errorPosition : ErrorPosition

/-- A language as it was asked for. -/
structure EntryDraft where
  name : Text
  provider : Provider
  extensions : List Text
  errorPosition : Text

/-- Why drafts make no registry. -/
inductive RegistryError where
  | duplicate (name : Text)
  | unknownPosition (name position : Text)
deriving DecidableEq, Repr

/-- The text of the error. -/
def RegistryError.message : RegistryError → Text
  | .duplicate name => "Duplicate language entry: " ++ name
  | .unknownPosition name position =>
    "Language " ++ name ++ ": error_position must be one of ("
      ++ ", ".intercalate
        ([ErrorPosition.root, .firstChild, .both].map fun p => Text.quoted p.text)
      ++ "), got " ++ Text.quoted position

/-- Languages with different names, in the order in which they are tried. -/
structure Registry where
  entries : List Entry
  names_nodup : (entries.map Entry.name).Nodup

namespace Registry

/-- The entries of drafts none of which may have one of the names `taken`. -/
def enrol (taken : List Text) : (drafts : List EntryDraft) → Except RegistryError
    { entries : List Entry //
      (entries.map Entry.name).Nodup ∧ ∀ n ∈ entries.map Entry.name, n ∉ taken }
  | [] => .ok ⟨[], by simp⟩
  | d :: rest =>
    if free : d.name ∈ taken then .error (.duplicate d.name)
    else
      match ErrorPosition.ofText? d.errorPosition with
      | none => .error (.unknownPosition d.name d.errorPosition)
      | some position =>
        match enrol (d.name :: taken) rest with
        | .error e => .error e
        | .ok ⟨entries, nodup, fresh⟩ =>
          .ok ⟨⟨d.name, d.provider, d.extensions, position⟩ :: entries, by
            refine ⟨List.nodup_cons.2 ⟨fun h => ?_, nodup⟩, fun n h => ?_⟩
            · exact fresh _ h (List.mem_cons_self ..)
            · rcases List.mem_cons.1 h with rfl | h
              · exact free
              · exact fun taken => fresh n h (List.mem_cons_of_mem _ taken)⟩

/-- The registry of some drafts. -/
def of? (drafts : List EntryDraft) : Except RegistryError Registry :=
  (enrol [] drafts).map fun entries => ⟨entries.1, entries.2.1⟩

/-- The names of the languages. -/
def names (r : Registry) : List Text :=
  r.entries.map Entry.name

/-- The first entry that claims an extension, which is normalized before. -/
def entryFor? (r : Registry) (extension : Option Text) : Option Entry :=
  (extensionKey? extension).bind fun key => r.entries.find? fun e => e.extensions.contains key

/-- The entries in the order in which they are tried on a file with an
extension: the one that claims it, and the others as they are. -/
def prioritized (r : Registry) (extension : Option Text) : List Entry :=
  match r.entryFor? extension with
  | none => r.entries
  | some hinted => hinted :: r.entries.filter fun e => e.name != hinted.name

end Registry

end SyntaxChunks
