/-
# `Proofs.PackedSpans` — what the spans of a tree are good for

Three promises of packing, from the one that asks nothing of the tree to the one that asks most.

* `pack_within_or_indivisible` — of any tree, a span over the budget is that of a node that cannot
  be divided.
* `pack_ordered_inside` — under an upright root the spans follow one another inside it, whatever
  the ranges below it are, and none is empty but that of a root taken whole.
* `pack_holds_leaf_once` — of a well-formed tree, exactly one span holds a leaf with bytes, and no
  other has any byte of it.
-/
import SyntaxChunks.Proofs.Packing

namespace SyntaxChunks

variable {root : Node}

/-! ## Any tree -/

/-- A node is taken whole if it has no children, disagrees with them, or lies at the depth limit. -/
theorem Node.whole?_isSome_iff {depth : Nat} {n : Node} :
    (n.whole? depth).isSome ↔ n.children = [] ∨ n.fault? ≠ none ∨ depthLimit ≤ depth := by
  rw [← not_iff_not, Node.not_isSome_whole?_iff, not_or, not_or, not_not, Nat.not_le]
  exact and_congr_right fun _ => and_comm

/-- A span keeps to the budget, or is that of a node without children, of one that disagrees with
its children, or of one at the depth limit. -/
theorem pack_within_or_indivisible (budget : Int) (root : Node) :
    ∀ s ∈ pack budget root, s.length ≤ budget ∨
      ∃ k n, root.At k n ∧ (n.children = [] ∨ n.fault? ≠ none ∨ depthLimit ≤ k) ∧ s = n.span := by
  intro s hs
  rcases pack_fits s hs with hfit | ⟨k, n, hn, hwhole, rfl⟩
  · exact .inl hfit
  · exact .inr ⟨k, n, hn, Node.whole?_isSome_iff.mp hwhole, rfl⟩

/-- A root over three leaves and a branch that disagrees with its children: one leaves it, the other
turns around. -/
def brokenBranch : Node :=
  ⟨"root", 0, 20, false,
    [⟨"a", 0, 6, false, []⟩,
      ⟨"b", 6, 15, false, [⟨"c", 9, 40, false, []⟩, ⟨"d", 2, 1, false, []⟩]⟩,
      ⟨"e", 15, 15, false, []⟩, ⟨"f", 16, 20, false, []⟩]⟩

theorem pack_within_or_indivisible_brokenBranch :
    ⟨6, 15⟩ ∈ pack 5 brokenBranch ∧ ¬ Span.length ⟨6, 15⟩ ≤ 5 ∧
      ∃ k n, brokenBranch.At k n ∧ (n.children = [] ∨ n.fault? ≠ none ∨ depthLimit ≤ k) ∧
        ⟨6, 15⟩ = n.span := by
  have hmem : ⟨6, 15⟩ ∈ pack 5 brokenBranch := by decide
  have hover : ¬ Span.length ⟨6, 15⟩ ≤ 5 := by decide
  exact ⟨hmem, hover, (pack_within_or_indivisible 5 brokenBranch _ hmem).resolve_left hover⟩

/-! ## An upright root -/

/-- The spans of an upright root are in order and disjoint, lie inside it, and have bytes, except
that a root without bytes may be taken whole. -/
theorem pack_ordered_inside (hupright : root.start ≤ root.stop) (budget : Int) :
    (pack budget root).Pairwise (fun s t => s.start < t.start ∧ s.stop ≤ t.start) ∧
      (∀ s ∈ pack budget root, root.start ≤ s.start ∧ s.stop ≤ root.stop) ∧
      ((∀ s ∈ pack budget root, s.start < s.stop) ∨
        (root.whole? 0).isSome ∧ root.start = root.stop ∧ pack budget root = [root.span]) := by
  have horder : InOrder root.start root.stop (pack budget root) := pack_inOrder hupright
  have hinside : ∀ s ∈ pack budget root, root.start ≤ s.start ∧ s.stop ≤ root.stop := by
    intro s hs
    have hbounds := horder.bounds s hs
    exact ⟨hbounds.1, hbounds.2.2⟩
  rcases pack_nonempty budget root with hne | ⟨hwhole, hall⟩
  · refine ⟨horder.pairwise.imp_of_mem fun {s t} hs _ hst => ⟨?_, hst⟩, hinside, .inl hne⟩
    have hlt := hne s hs
    omega
  · refine ⟨?_, hinside, ?_⟩
    · rw [hall]
      exact List.pairwise_singleton _ _
    · by_cases hempty : root.start = root.stop
      · exact .inr ⟨hwhole, hempty, hall⟩
      · refine .inl fun s hs => ?_
        rw [hall, List.mem_singleton] at hs
        rw [hs]
        exact Int.lt_iff_le_and_ne.mpr ⟨hupright, hempty⟩

theorem pack_ordered_inside_brokenBranch :
    brokenBranch.start ≤ brokenBranch.stop ∧
      pack 5 brokenBranch = [⟨0, 6⟩, ⟨6, 15⟩, ⟨15, 20⟩] ∧
      (pack 5 brokenBranch).Pairwise (fun s t => s.start < t.start ∧ s.stop ≤ t.start) ∧
      ∀ s ∈ pack 5 brokenBranch, 0 ≤ s.start ∧ s.stop ≤ 20 := by
  have hupright : brokenBranch.start ≤ brokenBranch.stop := by decide
  obtain ⟨horder, hinside, _⟩ := pack_ordered_inside hupright 5
  exact ⟨hupright, by decide, horder, hinside⟩

/-! ## A well-formed tree -/

/-- Of a well-formed tree exactly one span reaches around a leaf with bytes, and a span that has a
byte of the leaf reaches around it. -/
theorem pack_holds_leaf_once {leaf : Node} {k : Nat} (hwell : root.WellFormed)
    (hat : root.At k leaf) (hleaf : leaf.children = []) (hlt : leaf.start < leaf.stop)
    (budget : Int) :
    (∃! i : Fin (pack budget root).length, ((pack budget root).get i).Around leaf.span) ∧
      ∀ s ∈ pack budget root, ∀ x, leaf.span.Holds x → s.Holds x → s.Around leaf.span := by
  have hin := hwell.inside hat
  have horder : InOrder root.start root.stop (pack budget root) := pack_inOrder (by omega)
  obtain ⟨s, hs, haround⟩ := @pack_around budget _ _ _ hwell hat hleaf hlt
  obtain ⟨i, rfl⟩ := List.mem_iff_get.mp hs
  have hfirst : leaf.span.Holds leaf.start := ⟨Int.le_refl _, hlt⟩
  refine ⟨⟨i, haround, fun j hj => ?_⟩, fun t ht x hx htx => ?_⟩
  · exact horder.eq_of_holds (hj.holds hfirst) (haround.holds hfirst)
  · obtain ⟨j, rfl⟩ := List.mem_iff_get.mp ht
    rw [horder.eq_of_holds htx (haround.holds hx)]
    exact haround

/-- A tree of two levels with a gap and a node without bytes. -/
def gappedTree : Node :=
  ⟨"root", 0, 14, false,
    [⟨"a", 0, 3, false, []⟩,
      ⟨"b", 3, 12, false,
        [⟨"c", 3, 7, false, []⟩, ⟨"d", 7, 7, false, []⟩, ⟨"e", 8, 12, false, []⟩]⟩,
      ⟨"f", 12, 14, false, []⟩]⟩

theorem gappedTree_wellFormed : gappedTree.WellFormed := by
  have hupright : ∀ c ∈ gappedTree.children, ∀ d ∈ c.children, d.start ≤ d.stop := by decide
  have hinside : ∀ c ∈ gappedTree.children, ∀ d ∈ c.children, c.start ≤ d.start ∧ d.stop ≤ c.stop :=
    by decide
  have hdisjoint : ∀ c ∈ gappedTree.children, c.children.Pairwise fun d e => d.stop ≤ e.start := by
    decide
  refine Node.wellFormed_iff.mpr ⟨⟨by decide, by decide, by decide⟩, fun c hc => ?_⟩
  refine Node.Orderly.wellFormed ⟨hupright c hc, hinside c hc, hdisjoint c hc⟩ ?_
  revert c
  decide

theorem pack_holds_leaf_once_gappedTree :
    gappedTree.WellFormed ∧ gappedTree.At 2 ⟨"e", 8, 12, false, []⟩ ∧
      pack 5 gappedTree = [⟨0, 3⟩, ⟨3, 7⟩, ⟨8, 12⟩, ⟨12, 14⟩] ∧
      ∃! i : Fin (pack 5 gappedTree).length, ((pack 5 gappedTree).get i).Around ⟨8, 12⟩ := by
  have hbranch : gappedTree.At 1 ⟨"b", 3, 12, false,
      [⟨"c", 3, 7, false, []⟩, ⟨"d", 7, 7, false, []⟩, ⟨"e", 8, 12, false, []⟩]⟩ :=
    .child .root (List.mem_cons_of_mem _ List.mem_cons_self)
  have hat : gappedTree.At 2 ⟨"e", 8, 12, false, []⟩ :=
    .child hbranch (List.mem_cons_of_mem _ (List.mem_cons_of_mem _ List.mem_cons_self))
  obtain ⟨hone, _⟩ := pack_holds_leaf_once gappedTree_wellFormed hat rfl (by decide) 5
  exact ⟨gappedTree_wellFormed, hat, by decide, hone⟩

end SyntaxChunks
