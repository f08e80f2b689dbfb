/-
# `Packing` — the spans of a tree under a size budget

The children of a node are put together, from left to right, as long as the
hull of what lies open stays within the budget.  A child that is longer than
the budget by itself closes the open span and is packed on its own, one level
deeper.  A node is taken whole if it has no children, lies at the depth limit,
or disagrees with its children.

* `pack` — the spans of a tree.
* `packingRemarks` — the nodes that were taken whole for another reason than
  having no children, in the order they are met.
-/
import SyntaxChunks.Tree

namespace SyntaxChunks

/-- The depth from which on no node is looked into. -/
def depthLimit : Nat := 200

/-- Why a node is taken whole. -/
inductive Whole where
  | leaf
  | tooDeep
  | malformed (fault : Fault)
deriving DecidableEq, Repr

/-- Why a node at the given depth is taken whole; `none` if it is divided. -/
def Node.whole? (depth : Nat) (n : Node) : Option Whole :=
  if n.children.isEmpty then some .leaf
  else if depthLimit ≤ depth then some .tooDeep
  else n.fault?.map .malformed

mutual

/-- The spans of a node at the given depth. -/
def packNode (budget : Int) (depth : Nat) : Node → List Span
  | ⟨kind, start, stop, marked, children⟩ =>
    if (Node.whole? depth ⟨kind, start, stop, marked, children⟩).isSome then [⟨start, stop⟩]
    else (packSiblings budget depth none children).filter fun s => !s.isEmpty

/-- The spans of siblings whose parent lies at the given depth, behind the
span that is still open. -/
def packSiblings (budget : Int) (depth : Nat) : Option Span → List Node → List Span
  | opened, [] => opened.toList
  | opened, n :: rest =>
    if budget < n.span.length then
      opened.toList ++ packNode budget (depth + 1) n ++ packSiblings budget depth none rest
    else
      match opened with
      | none => packSiblings budget depth (some n.span) rest
      | some s =>
        if budget < (s.hull n.span).length then
          s :: packSiblings budget depth (some n.span) rest
        else packSiblings budget depth (some (s.hull n.span)) rest

end

theorem packNode_eq (budget : Int) (depth : Nat) (n : Node) :
    packNode budget depth n =
      if (n.whole? depth).isSome then [n.span]
      else (packSiblings budget depth none n.children).filter fun s => !s.isEmpty := by
  cases n
  simp only [packNode, Node.span]

/-- The spans of a tree. -/
def pack (budget : Int) (root : Node) : List Span :=
  packNode budget 0 root

/-! ## Remarks -/

/-- A node that was taken whole, and why. -/
structure PackingRemark where
  kind : String
  span : Span
  reason : Whole
deriving DecidableEq, Repr

mutual

/-- The remarks on a node at the given depth. -/
def remarksOnNode (budget : Int) (depth : Nat) : Node → List PackingRemark
  | ⟨kind, start, stop, marked, children⟩ =>
    match Node.whole? depth ⟨kind, start, stop, marked, children⟩ with
    | some .leaf => []
    | some reason => [⟨kind, ⟨start, stop⟩, reason⟩]
    | none => remarksOnSiblings budget depth children

/-- The remarks on the siblings that are packed on their own. -/
def remarksOnSiblings (budget : Int) (depth : Nat) : List Node → List PackingRemark
  | [] => []
  | n :: rest =>
    (if budget < n.span.length then remarksOnNode budget (depth + 1) n else [])
      ++ remarksOnSiblings budget depth rest

end

/-- The remarks on a tree. -/
def packingRemarks (budget : Int) (root : Node) : List PackingRemark :=
  remarksOnNode budget 0 root

end SyntaxChunks
