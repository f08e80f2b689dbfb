/-
# `Files` — reading files, and why it fails

`FileSystem` is what a program sees of its files: the contents of a path, or
the fault of reading it.  `Folder` is a working folder given by its files and
folders, beside which nothing else exists.
-/
import SyntaxChunks.Contents
import SyntaxChunks.Path
import SyntaxChunks.Text.Quoted

namespace SyntaxChunks

/-- What the system answers instead of the contents of a file.  It may refuse to
open the path, or stop on the way through a file that is open. -/
inductive ReadFault where
  | missing
  | isFolder
  | notFolder
  | nameTooLong
  | notOpened (number : Nat) (reason : String)
  | stopped (number : Nat) (reason : String)
deriving DecidableEq, Repr

namespace ReadFault

/-- The system's number of a fault. -/
def number : ReadFault → Nat
  | .missing => 2
  | .notFolder => 20
  | .isFolder => 21
  | .nameTooLong => 36
  | .notOpened number _ => number
  | .stopped number _ => number

/-- The system's word for a fault. -/
def reason : ReadFault → String
  | .missing => "No such file or directory"
  | .notFolder => "Not a directory"
  | .isFolder => "Is a directory"
  | .nameTooLong => "File name too long"
  | .notOpened _ reason => reason
  | .stopped _ reason => reason

/-- Does the system say which path it is about?  Of a file that is open it does
not. -/
def namesPath : ReadFault → Bool
  | .stopped .. => false
  | _ => true

end ReadFault

/-- Why a file could not be read: the text is no path, or the system refused
the path. -/
inductive ReadError where
  | notAPath (fault : PathFault)
  | refused (fault : ReadFault) (path : Text)
deriving DecidableEq, Repr

/-- The text of the error. -/
def ReadError.message : ReadError → String
  | .notAPath fault => fault.message
  | .refused fault path =>
    s!"[Errno {fault.number}] {fault.reason}"
      ++ if fault.namesPath then ": " ++ Text.quoted path else ""

/-- The contents of each path, or the fault of reading it. -/
abbrev FileSystem := Path → Except ReadFault Contents

/-- The contents of the file that a text names. -/
def FileSystem.read (files : FileSystem) (path : Text) : Except ReadError Contents :=
  match Path.fault? path with
  | some fault => .error (.notAPath fault)
  | none => (files (.ofText path)).mapError (.refused · (Path.ofText path).text)

/-! ## A folder and nothing else -/

/-- What a name in a folder stands for. -/
inductive FileItem where
  | file (contents : Contents)
  | folder
deriving DecidableEq, Repr

/-- A name as the system knows it. -/
abbrev FileName := List UInt8

/-- The name that a part of a path stands for. -/
def FileName.of (part : Text) : FileName :=
  part.systemBytes?.getD []

/-- The files and folders below a working folder, by the names on the way. -/
structure Folder where
  items : List (List FileName × FileItem)

namespace Folder

/-- The folder of the given paths; a path makes all the folders on its way. -/
def ofPaths (items : List (Text × FileItem)) : Folder :=
  ⟨items.map fun item => ((Path.ofText item.1).parts.map FileName.of, item.2)⟩

/-- What lies at some names below the working folder. -/
def itemAt? (folder : Folder) (names : List FileName) : Option FileItem :=
  match folder.items.find? fun item => item.1 == names with
  | some item => some item.2
  | none =>
    if names.isEmpty || folder.items.any fun item => names.isPrefixOf item.1 then some .folder
    else none

/-- A place that a path leads to: below the working folder, or outside it. -/
inductive Place where
  | below (names : List FileName)
  | outside
deriving DecidableEq, Repr

/-- What lies at a place. -/
def atPlace (folder : Folder) : Place → Except ReadFault FileItem
  | .below names =>
    match folder.itemAt? names with
    | some item => .ok item
    | none => .error .missing
  | .outside => .ok .folder

/-- The place above a folder. -/
def Place.up : Place → Place
  | .below names => if names.isEmpty then .outside else .below names.dropLast
  | .outside => .outside

/-- The greatest number of bytes in a name. -/
def nameLimit : Nat := 255

/-- The greatest number of bytes in a path. -/
def pathLimit : Nat := 4095

/-- The item that some names lead to from a place. -/
def walk (folder : Folder) (place : Place) : List FileName → Except ReadFault FileItem
  | [] => folder.atPlace place
  | name :: rest =>
    match folder.atPlace place with
    | .error fault => .error fault
    | .ok (.file _) => .error .notFolder
    | .ok .folder =>
      if name == FileName.of Path.above then folder.walk place.up rest
      else if nameLimit < name.length then .error .nameTooLong
      else
        match place with
        | .below names => folder.walk (.below (names ++ [name])) rest
        | .outside => .error .missing

/-- The folder as the working folder of a file system. -/
def fileSystem (folder : Folder) : FileSystem := fun path =>
  if pathLimit < (FileName.of path.text).length then .error .nameTooLong
  else
    let place := if path.root.isEmpty then .below [] else .outside
    match folder.walk place (path.parts.map FileName.of) with
    | .ok (.file contents) => .ok contents
    | .ok .folder => .error .isFolder
    | .error fault => .error fault

end Folder

end SyntaxChunks
