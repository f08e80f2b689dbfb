/-
# `Json.Value` — JSON values, and their display

The members of an object keep the order in which their keys were first
written.  `Json.display` shows a value inside another text: a string as it is
at the outside and between quotes within a list or an object.
-/
import SyntaxChunks.Number.Decimal
import SyntaxChunks.Text.Quoted

namespace SyntaxChunks

/-- A JSON value; whole numbers are kept apart from the others. -/
inductive Json where
  | null
  | bool (value : Bool)
  | int (value : Int)
  | float (value : Number.Binary64)
  | str (value : Text)
  | arr (items : List Json)
  | obj (members : List (Text × Json))
deriving Repr

namespace Json

/-- The value of a key. -/
def get? (key : Text) (members : List (Text × Json)) : Option Json :=
  (members.find? fun m => m.1 == key).map Prod.snd

/-- The members with the value of a key set: in its place if the key is there,
and at the end otherwise. -/
def setMember (key : Text) (value : Json) : List (Text × Json) → List (Text × Json)
  | [] => [(key, value)]
  | m :: rest => if m.1 == key then (key, value) :: rest else m :: setMember key value rest

mutual

/-- A value as it is shown within a list or an object. -/
def quotedDisplay : Json → String
  | .null => "None"
  | .bool value => if value then "True" else "False"
  | .int value => toString value
  | .float value => value.text
  | .str value => Text.quoted value
  | .arr items => "[" ++ ", ".intercalate (quotedItems items) ++ "]"
  | .obj members => "\x7b" ++ ", ".intercalate (quotedMembers members) ++ "\x7d"

/-- The items of a list, each as it is shown. -/
def quotedItems : List Json → List String
  | [] => []
  | v :: rest => quotedDisplay v :: quotedItems rest

/-- The members of an object, each as it is shown. -/
def quotedMembers : List (Text × Json) → List String
  | [] => []
  | (key, v) :: rest => (Text.quoted key ++ ": " ++ quotedDisplay v) :: quotedMembers rest

end

/-- A value as it is shown on its own. -/
def display : Json → Text
  | .str value => value
  | v => quotedDisplay v

end Json

end SyntaxChunks
