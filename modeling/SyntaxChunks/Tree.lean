/-
# `Tree` — syntax trees as grammars hand them back

A node has a kind, a range of byte offsets, a mark that says whether the
grammar could not read it, and children.  Nothing about the ranges is promised:
`Node.fault?` names the first way in which a node and its children disagree.
-/
import SyntaxChunks.Span

namespace SyntaxChunks

/-- A node of a syntax tree. -/
structure Node where
  kind : String
  start : Int
  stop : Int
  marked : Bool
  children : List Node
deriving Repr

namespace Node

/-- The range of a node. -/
def span (n : Node) : Span :=
  ⟨n.start, n.stop⟩

/-- The kind of the nodes that stand for unreadable text. -/
def errorKind : String := "ERROR"

/-- Does the node stand for text that the grammar could not read? -/
def isError (n : Node) : Bool :=
  n.marked || n.kind == errorKind

end Node

/-! ## Faults among the ranges of a node and its children -/

/-- The ways in which the range of a node and those of its children disagree. -/
inductive Fault where
  | inverted
  | invertedChild (index : Nat)
  | outsideChild (index : Nat)
  | overlappingChild (index : Nat)
deriving DecidableEq, Repr

/-- The text of a fault. -/
def Fault.message : Fault → String
  | .inverted => "inverted node range"
  | .invertedChild i => s!"child {i} has an inverted range"
  | .outsideChild i => s!"child {i} lies outside its parent"
  | .overlappingChild i => s!"child {i} overlaps or precedes its left sibling"

/-- The first fault among spans inside `parent`, the first of which has number
`index` and may not start before `left`. -/
def faultAmong (parent : Span) (index : Nat) (left : Int) : List Span → Option Fault
  | [] => none
  | s :: rest =>
    if s.stop < s.start then some (.invertedChild index)
    else if s.start < parent.start ∨ parent.stop < s.stop then some (.outsideChild index)
    else if s.start < left then some (.overlappingChild index)
    else faultAmong parent (index + 1) s.stop rest

/-- The first fault of a node. -/
def Node.fault? (n : Node) : Option Fault :=
  if n.stop < n.start then some .inverted
  else faultAmong n.span 0 n.start (n.children.map Node.span)

end SyntaxChunks
