/-
# `Proofs.Pruning` — what packing looks at

Of the nodes below a root packing reads only some.  A child within the budget shows nothing but its
range, and a node that is taken whole shows nothing of its children but that it has some, whether
their ranges agree with its own, or that it lies at the depth limit.  `packNode_congr` says it for
one level: two nodes pack alike if their ranges are the same, and if child by child the ranges are
the same and those over the budget pack alike.

So the children of sealed nodes can be cut off (`packNode_pruneNode`), and a sealed node anywhere in
a tree can be exchanged for another one of the same range (`Node.Exchanged.packNode_eq`).
-/
import SyntaxChunks.Proofs.PackedSpans

namespace SyntaxChunks

variable {budget : Int} {depth : Nat}

/-! ## Nodes that pack alike -/

/-- Among siblings the nodes cannot be told apart: they have the same range and, if that is over the
budget, pack alike. -/
structure Node.PacksAlike (budget : Int) (depth : Nat) (m n : Node) : Prop where
  span : m.span = n.span
  pack : budget < n.span.length → packNode budget depth m = packNode budget depth n

theorem Node.PacksAlike.refl (budget : Int) (depth : Nat) (n : Node) :
    Node.PacksAlike budget depth n n :=
  ⟨rfl, fun _ => rfl⟩

theorem packSiblings_congr {ms ns : List Node}
    (h : List.Forall₂ (Node.PacksAlike budget (depth + 1)) ms ns) (opened : Option Span) :
    packSiblings budget depth opened ms = packSiblings budget depth opened ns := by
  induction h generalizing opened with
  | nil => rfl
  | @cons m n ms ns hmn _ ih =>
      by_cases hlong : budget < n.span.length
      · simp only [packSiblings, hmn.span, if_pos hlong, hmn.pack hlong, ih]
      · simp only [packSiblings, hmn.span, if_neg hlong, ih]

theorem Node.whole?_congr {m n : Node} (hspan : m.span = n.span)
    (hchildren : m.children.map Node.span = n.children.map Node.span) :
    m.whole? depth = n.whole? depth := by
  have hstart : m.start = n.start := congrArg Span.start hspan
  have hstop : m.stop = n.stop := congrArg Span.stop hspan
  have hempty : m.children.isEmpty = n.children.isEmpty := by
    rw [← List.isEmpty_map, hchildren, List.isEmpty_map]
  have hfault : m.fault? = n.fault? := by
    rw [Node.fault?, Node.fault?, hspan, hstart, hstop, hchildren]
  rw [Node.whole?, Node.whole?, hempty, hfault]

/-- A node packs by its range and by how its children look among siblings. -/
theorem packNode_congr {m n : Node} (hspan : m.span = n.span)
    (hchildren : List.Forall₂ (Node.PacksAlike budget (depth + 1)) m.children n.children) :
    packNode budget depth m = packNode budget depth n := by
  have hspans : m.children.map Node.span = n.children.map Node.span := by
    rw [← List.forall₂_eq_eq_eq, List.forall₂_map_left_iff, List.forall₂_map_right_iff]
    exact hchildren.imp fun _ _ h => h.span
  rw [packNode_eq, packNode_eq, Node.whole?_congr hspan hspans, hspan,
    packSiblings_congr hchildren none]

/-! ## Sealed nodes -/

/-- Nothing below the node counts: it disagrees with its children, lies at the depth limit, or is
not the root and within the budget. -/
def Node.Sealed (budget : Int) (depth : Nat) (n : Node) : Prop :=
  n.fault? ≠ none ∨ depthLimit ≤ depth ∨ depth ≠ 0 ∧ n.span.length ≤ budget

instance (budget : Int) (depth : Nat) (n : Node) : Decidable (n.Sealed budget depth) :=
  inferInstanceAs (Decidable (_ ∨ _ ∨ _))

/-- A sealed node that is looked at is taken whole, and so is a node without children. -/
theorem packNode_of_sealed {n : Node} (h : n.children = [] ∨ n.Sealed budget depth)
    (hseen : depth = 0 ∨ budget < n.span.length) : packNode budget depth n = [n.span] := by
  have hwhole : n.children = [] ∨ n.fault? ≠ none ∨ depthLimit ≤ depth := by
    rcases h with hleaf | hfault | hdeep | ⟨hbelow, hfit⟩
    · exact .inl hleaf
    · exact .inr (.inl hfault)
    · exact .inr (.inr hdeep)
    · rcases hseen with htop | hover
      · exact absurd htop hbelow
      · exact absurd hover (Int.not_lt.mpr hfit)
  rw [packNode_eq, if_pos (Node.whole?_isSome_iff.mpr hwhole)]

/-! ## Pruning -/

mutual

/-- The tree below a node at the given depth, without the children of sealed nodes. -/
def pruneNode (budget : Int) (depth : Nat) : Node → Node
  | ⟨kind, start, stop, marked, children⟩ =>
    if Node.Sealed budget depth ⟨kind, start, stop, marked, children⟩ then
      ⟨kind, start, stop, marked, []⟩
    else ⟨kind, start, stop, marked, pruneSiblings budget (depth + 1) children⟩

/-- The same for siblings at the given depth. -/
def pruneSiblings (budget : Int) (depth : Nat) : List Node → List Node
  | [] => []
  | n :: rest => pruneNode budget depth n :: pruneSiblings budget depth rest

end

theorem pruneSiblings_eq_map (children : List Node) :
    pruneSiblings budget depth children = children.map (pruneNode budget depth) := by
  induction children with
  | nil => rfl
  | cons n rest ih => rw [pruneSiblings, List.map_cons, ih]

theorem children_pruneNode (n : Node) :
    (pruneNode budget depth n).children =
      if n.Sealed budget depth then [] else n.children.map (pruneNode budget (depth + 1)) := by
  cases n
  rw [pruneNode, ← pruneSiblings_eq_map]
  split <;> rfl

@[simp] theorem span_pruneNode (n : Node) : (pruneNode budget depth n).span = n.span := by
  cases n
  rw [pruneNode]
  split <;> rfl

/-- A node that is looked at packs as it does without the children of sealed nodes. -/
theorem packNode_pruneNode :
    ∀ (n : Node) (depth : Nat), depth = 0 ∨ budget < n.span.length →
      packNode budget depth (pruneNode budget depth n) = packNode budget depth n := by
  intro n
  induction n using Node.induction with
  | step n ih =>
      intro depth hseen
      by_cases hsealed : n.Sealed budget depth
      · have hleaf : (pruneNode budget depth n).children = [] := by
          rw [children_pruneNode, if_pos hsealed]
        rw [packNode_of_sealed (.inr hsealed) hseen,
          packNode_of_sealed (.inl hleaf) (by rwa [span_pruneNode]), span_pruneNode]
      · refine packNode_congr (span_pruneNode n) ?_
        rw [children_pruneNode, if_neg hsealed, List.forall₂_map_left_iff, List.forall₂_same]
        intro c hc
        exact ⟨span_pruneNode c, fun hover => ih c hc (depth + 1) (.inr hover)⟩

/-! ## Exchanging a node -/

/-- The second tree is the first one with a node so many levels below the root exchanged. -/
inductive Node.Exchanged (n n' : Node) : Nat → Node → Node → Prop
  | root : Node.Exchanged n n' 0 n n'
  | child {k : Nat} {c c' : Node} {kind : String} {start stop : Int} {marked : Bool}
      {front back : List Node} : Node.Exchanged n n' k c c' →
      Node.Exchanged n n' (k + 1) ⟨kind, start, stop, marked, front ++ c :: back⟩
        ⟨kind, start, stop, marked, front ++ c' :: back⟩

theorem Node.Exchanged.span_eq {n n' root root' : Node} {k : Nat}
    (h : Node.Exchanged n n' k root root') (hspan : n'.span = n.span) : root'.span = root.span := by
  cases h with
  | root => exact hspan
  | child _ => rfl

/-- Where a sealed node is exchanged for a sealed one of the same range, packing does not notice. -/
theorem Node.Exchanged.packNode_eq {n n' root root' : Node} {k : Nat}
    (h : Node.Exchanged n n' k root root') (hspan : n'.span = n.span) :
    ∀ {depth : Nat}, (n.children = [] ∨ n.Sealed budget (depth + k)) →
      (n'.children = [] ∨ n'.Sealed budget (depth + k)) →
      (depth = 0 ∨ budget < root.span.length) →
      packNode budget depth root' = packNode budget depth root := by
  induction h with
  | root =>
      intro depth hn hn' hseen
      rw [Nat.add_zero] at hn hn'
      rw [packNode_of_sealed hn hseen, packNode_of_sealed hn' (by rwa [hspan]), hspan]
  | @child k c c' kind start stop marked front back hbelow ih =>
      intro depth hn hn' _
      have hdepth : depth + (k + 1) = depth + 1 + k := by omega
      rw [hdepth] at hn hn'
      have hsame : ∀ ns : List Node, List.Forall₂ (Node.PacksAlike budget (depth + 1)) ns ns :=
        fun ns => List.forall₂_same.mpr fun m _ => .refl budget (depth + 1) m
      have hchild : Node.PacksAlike budget (depth + 1) c' c :=
        ⟨hbelow.span_eq hspan, fun hover => ih hn hn' (.inr hover)⟩
      exact packNode_congr rfl (List.rel_append (hsame front) (.cons hchild (hsame back)))

/-! ## Siblings of a long node -/

/-- A child over the budget divides its siblings: those before it and those behind it are packed
without regard to it and to one another. -/
theorem packSiblings_append_long {c : Node} {back : List Node} (hover : budget < c.span.length) :
    ∀ (opened : Option Span) (front : List Node),
      packSiblings budget depth opened (front ++ c :: back) =
        packSiblings budget depth opened front ++ packNode budget (depth + 1) c ++
          packSiblings budget depth none back
  | opened, [] => by
      simp only [List.nil_append, packSiblings, if_pos hover]
  | opened, n :: front => by
      rw [List.cons_append]
      by_cases hlong : budget < n.span.length
      · simp only [packSiblings, if_pos hlong, packSiblings_append_long hover none front,
          List.append_assoc]
      · cases opened with
        | none =>
            simp only [packSiblings, if_neg hlong, packSiblings_append_long hover _ front]
        | some s =>
            by_cases hfull : budget < (s.hull n.span).length
            · simp only [packSiblings, if_neg hlong, if_pos hfull,
                packSiblings_append_long hover _ front, List.cons_append]
            · simp only [packSiblings, if_neg hlong, if_neg hfull,
                packSiblings_append_long hover _ front]

/-- Without the children of its sealed nodes a tree has the same spans.  Any one node that is sealed
or has no children can be exchanged for another such node of the same range: one that disagrees with
its children for a leaf, or one within the budget for one with other children.  A child over the
budget that disagrees with its own children gives its range, and leaves the spans of its siblings
what they are without it. -/
theorem pack_blind_below_sealed (budget : Int) (root : Node) :
    pack budget (pruneNode budget 0 root) = pack budget root ∧
      (∀ k n n' root', Node.Exchanged n n' k root root' → n'.span = n.span →
        (n.children = [] ∨ n.Sealed budget k) → (n'.children = [] ∨ n'.Sealed budget k) →
        pack budget root' = pack budget root) ∧
      ∀ k m front c back, m.children = front ++ c :: back → m.whole? k = none →
        c.fault? ≠ none → budget < c.span.length →
        packNode budget k m = (packSiblings budget k none front ++ [c.span] ++
          packSiblings budget k none back).filter fun s => !s.isEmpty := by
  refine ⟨packNode_pruneNode root 0 (.inl rfl), ?_, ?_⟩
  · intro k n n' root' hexchanged hspan hn hn'
    rw [← Nat.zero_add k] at hn hn'
    exact hexchanged.packNode_eq hspan hn hn' (.inl rfl)
  · intro k m front c back hchildren hwhole hfault hover
    have hdivided : ¬ (m.whole? k).isSome := by
      rw [hwhole]
      exact Bool.noConfusion
    rw [packNode_eq, if_neg hdivided, hchildren, packSiblings_append_long hover,
      packNode_of_sealed (.inr (.inl hfault)) (.inr hover)]

/-- A node over a child that leaves it. -/
def strayedOver (start stop : Int) : Node :=
  ⟨"strayed", start, stop, false, [⟨"stray", start - 3, stop + 50, false, []⟩]⟩

/-- A branch over a leaf and the given node. -/
def branchOver (n : Node) : Node :=
  ⟨"branch", 20, 34, false, [⟨"leaf", 20, 25, false, []⟩, n]⟩

/-- A tree of a node within a budget of seven bytes, a node over it, a branch and a leaf. -/
def treeOver (n : Node) : Node :=
  ⟨"root", 0, 40, false,
    [strayedOver 0 6, strayedOver 6 20, branchOver n, ⟨"leaf", 34, 40, false, []⟩]⟩

/-- A node whose children overlap. -/
def overlappingBelow : Node :=
  ⟨"node", 25, 34, false, [⟨"one", 25, 30, false, []⟩, ⟨"other", 28, 34, false, []⟩]⟩

/-- A leaf of the same range. -/
def leafInstead : Node := ⟨"leaf", 25, 34, false, []⟩

theorem exchanged_treeOver (n n' : Node) : Node.Exchanged n n' 2 (treeOver n) (treeOver n') := by
  have hbranch : ∀ front : List Node, Node.Exchanged n n' 1 ⟨"branch", 20, 34, false, front ++ [n]⟩
      ⟨"branch", 20, 34, false, front ++ [n']⟩ := fun _ => .child .root
  have hroot : ∀ front back : List Node, Node.Exchanged n n' 2
      ⟨"root", 0, 40, false, front ++ branchOver n :: back⟩
      ⟨"root", 0, 40, false, front ++ branchOver n' :: back⟩ :=
    fun _ _ => .child (hbranch [⟨"leaf", 20, 25, false, []⟩])
  exact hroot [strayedOver 0 6, strayedOver 6 20] [⟨"leaf", 34, 40, false, []⟩]

theorem pack_blind_below_sealed_treeOver :
    pack 7 (treeOver overlappingBelow) = [⟨0, 6⟩, ⟨6, 20⟩, ⟨20, 25⟩, ⟨25, 34⟩, ⟨34, 40⟩] ∧
      pack 7 (pruneNode 7 0 (treeOver overlappingBelow)) = pack 7 (treeOver overlappingBelow) ∧
      overlappingBelow.Sealed 7 2 ∧
      pack 7 (treeOver leafInstead) = pack 7 (treeOver overlappingBelow) ∧
      (treeOver overlappingBelow).whole? 0 = none ∧ (strayedOver 6 20).fault? ≠ none ∧
      7 < (strayedOver 6 20).span.length ∧
      packNode 7 0 (treeOver overlappingBelow) =
        (packSiblings 7 0 none [strayedOver 0 6] ++ [(strayedOver 6 20).span] ++
          packSiblings 7 0 none [branchOver overlappingBelow, ⟨"leaf", 34, 40, false, []⟩]).filter
            fun s => !s.isEmpty := by
  have hsealed : overlappingBelow.Sealed 7 2 := .inl (by decide)
  have hdivided : (treeOver overlappingBelow).whole? 0 = none := by decide
  have hfault : (strayedOver 6 20).fault? ≠ none := by decide
  have hover : 7 < (strayedOver 6 20).span.length := by decide
  obtain ⟨hpruned, hexchange, hsiblings⟩ := pack_blind_below_sealed 7 (treeOver overlappingBelow)
  exact ⟨by decide, hpruned, hsealed,
    hexchange 2 _ _ _ (exchanged_treeOver overlappingBelow leafInstead) rfl (.inr hsealed)
      (.inl rfl),
    hdivided, hfault, hover,
    hsiblings 0 _ [strayedOver 0 6] _ _ rfl hdivided hfault hover⟩

end SyntaxChunks
