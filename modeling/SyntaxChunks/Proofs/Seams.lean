/-
# `Proofs.Seams` — where the chunks of a tree meet

Without hard cuts every end of a chunk is an end of the document or the start
of a packed span: closing gaps and joining lines make no ends of their own, and
an end that was moved into the document was moved to an end of the document.
A packed span starts where a node starts, and in a well-formed tree not inside
a leaf.  So chunks meet at starts of nodes and divide no leaf
(`chunks_meet_at_nodes`).  The document's own ends are none of this: they may
lie inside a leaf that reaches past them (`ends_inside_straddlingTree`).
-/
import SyntaxChunks.Proofs.Chunking
import SyntaxChunks.Proofs.Packing

namespace SyntaxChunks

/-! ## Ends of spans -/

section

variable {config : Config} {contents : Contents} {root : Node} {spans : List Span}

theorem boundedSpans_of_not_split (hsplit : config.splitLeaves = false) (index : LineIndex) :
    boundedSpans config index contents root = .ok (pack config.budget root) := by
  simp only [boundedSpans, hsplit, Bool.false_eq_true, if_false]

theorem exists_syntaxSpans_of_not_split (hsplit : config.splitLeaves = false) (index : LineIndex) :
    ∃ spans, syntaxSpans config index contents root = .ok spans :=
  ⟨_, syntaxSpans_eq_ok.mpr ⟨_, boundedSpans_of_not_split hsplit index, rfl⟩⟩

/-- The offset is an end of the contents, or the start of a packed span. -/
def Node.Seam (root : Node) (config : Config) (contents : Contents) (i : Int) : Prop :=
  i = 0 ∨ i = contents.size ∨ ∃ s ∈ pack config.budget root, s.start = i

theorem ends_syntaxSpans_of_not_split (hsplit : config.splitLeaves = false) {index : LineIndex}
    (h : syntaxSpans config index contents root = .ok spans) :
    ∀ s ∈ spans, s.Ends (root.Seam config contents) := by
  obtain ⟨bounded, hbounded, rfl⟩ := syntaxSpans_eq_ok.mp h
  rw [boundedSpans_of_not_split hsplit] at hbounded
  cases hbounded
  have hsize : root.Seam config contents contents.size := .inr (.inl rfl)
  refine ends_joinSingleLines (tile_tiles _ (Int.natCast_nonneg _)) hsize ?_
  exact ends_tile (.inl rfl) hsize fun s hs => .inr (.inr ⟨s, List.mem_of_mem_tail hs, rfl⟩)

/-- Inside the contents a seam is the start of a node. -/
theorem Node.Seam.exists_node {i : Int} (h : root.Seam config contents i) (hfirst : i ≠ 0)
    (hlast : i ≠ contents.size) : ∃ k n, root.At k n ∧ n.start = i := by
  obtain ⟨s, hs, rfl⟩ := (h.resolve_left hfirst).resolve_left hlast
  obtain ⟨⟨k, n, hn, hstart⟩, _⟩ := ends_pack s hs
  exact ⟨k, n, hn, hstart.symm⟩

/-- Inside the contents a seam divides no leaf of a well-formed tree. -/
theorem Node.Seam.outside_leaf {i : Int} (h : root.Seam config contents i) (hfirst : i ≠ 0)
    (hlast : i ≠ contents.size) (hwell : root.WellFormed) {leaf : Node} {k : Nat}
    (hat : root.At k leaf) (hleaf : leaf.children = []) : ¬ (leaf.start < i ∧ i < leaf.stop) := by
  obtain ⟨s, hs, rfl⟩ := (h.resolve_left hfirst).resolve_left hlast
  exact pack_start_outside hwell hat hleaf s hs

end

/-! ## Ends of chunks -/

section

variable {grammars : Grammars} {registry : Registry} {config : Config} {d : Document} {root : Node}
  {language : Text} {spans : List Span} {chunks : List Chunk}

theorem SyntaxRun.ends (hsplit : config.splitLeaves = false)
    (h : SyntaxRun grammars registry config d root language spans chunks) :
    ∀ c ∈ chunks, c.span.Ends (root.Seam config d.contents) := by
  intro c hc
  refine ends_syntaxSpans_of_not_split hsplit h.cut c.span ?_
  rw [← map_span_of_chunkAt h.chunkAt]
  exact List.mem_map_of_mem hc

theorem SyntaxRun.bounds (h : SyntaxRun grammars registry config d root language spans chunks) :
    ∀ c ∈ chunks, 0 ≤ c.span.start ∧ c.span.start < c.span.stop ∧
      c.span.stop ≤ d.contents.size := by
  intro c hc
  have hmem := List.mem_map_of_mem (f := Chunk.span) hc
  have hbounds := h.tiles.bounds c.span hmem
  exact ⟨hbounds.1, h.tiles.nonempty c.span hmem, hbounds.2⟩

/-- Two chunks in a row meet at the start of a node. -/
theorem SyntaxRun.meet_at_nodes (hsplit : config.splitLeaves = false)
    (h : SyntaxRun grammars registry config d root language spans chunks) :
    chunks.IsChain fun a b =>
      a.span.stop = b.span.start ∧ ∃ k n, root.At k n ∧ n.start = b.span.start := by
  have hmeet := (List.isChain_map Chunk.span).mp h.tiles.isChain
  refine hmeet.imp_of_mem_imp fun a b ha hb hab => ⟨hab, ?_⟩
  have hbefore := h.bounds a ha
  have hbehind := h.bounds b hb
  exact (h.ends hsplit b hb).1.exists_node (by omega) (by omega)

/-- No end of a chunk but those of the document lies inside a leaf of a well-formed tree. -/
theorem SyntaxRun.leaf_undivided (hsplit : config.splitLeaves = false)
    (h : SyntaxRun grammars registry config d root language spans chunks) (hwell : root.WellFormed)
    {leaf : Node} {k : Nat} (hat : root.At k leaf) (hleaf : leaf.children = []) :
    ∀ c ∈ chunks,
      (c.span.start ≠ 0 → ¬ (leaf.start < c.span.start ∧ c.span.start < leaf.stop)) ∧
        (c.span.stop ≠ d.contents.size →
          ¬ (leaf.start < c.span.stop ∧ c.span.stop < leaf.stop)) := by
  intro c hc
  have hends := h.ends hsplit c hc
  have hbounds := h.bounds c hc
  constructor
  · intro hfirst
    exact hends.1.outside_leaf hfirst (by omega) hwell hat hleaf
  · intro hlast
    exact hends.2.outside_leaf (by omega) hlast hwell hat hleaf

/-- Where leaves are not split, the tree that selection accepted makes the chunks.  Two of them meet
at the start of a node, and if the tree is well-formed, no end of a chunk lies inside a leaf, the
start and the end of the document apart. -/
theorem chunks_meet_at_nodes (hsplit : config.splitLeaves = false)
    (hselect : select grammars registry config.timeout d = .ok (some (root, language))) :
    ∃ chunks, chunkDocument grammars registry config d = .ok chunks ∧
      (∀ c ∈ chunks, c.strategy = .syntaxTree) ∧
      (chunks.IsChain fun a b =>
        a.span.stop = b.span.start ∧ ∃ k n, root.At k n ∧ n.start = b.span.start) ∧
      (root.WellFormed → ∀ k leaf, root.At k leaf → leaf.children = [] → ∀ c ∈ chunks,
        (c.span.start ≠ 0 → ¬ (leaf.start < c.span.start ∧ c.span.start < leaf.stop)) ∧
          (c.span.stop ≠ d.contents.size →
            ¬ (leaf.start < c.span.stop ∧ c.span.stop < leaf.stop))) := by
  obtain ⟨chunks, hchunks, hcases⟩ := chunkDocument_cases grammars registry config d
  rcases hcases with ⟨_, rfl⟩ | ⟨hne, _⟩
  · exact ⟨[], hchunks, by simp, .nil, by simp⟩
  · obtain ⟨spans, hspans⟩ := exists_syntaxSpans_of_not_split hsplit (.ofContents d.contents)
    obtain ⟨chunks, hchunks, hrun⟩ := exists_syntaxRun_of_cut hne hselect hspans
    refine ⟨chunks, hchunks, fun c hc => (chunkAt_of_mem hrun.chunkAt c hc).strategy,
      hrun.meet_at_nodes hsplit, ?_⟩
    intro hwell k leaf hat hleaf
    exact hrun.leaf_undivided hsplit hwell hat hleaf

end

/-! ## A tree that reaches past the document -/

/-- Two leaves, of which the first starts before a document of eight bytes and the second stops
behind it. -/
def straddlingTree : Node :=
  ⟨"root", -1, 10, false, [⟨"a", -1, 4, false, []⟩, ⟨"b", 4, 10, false, []⟩]⟩

def fourLines : Document :=
  ⟨.ofText "a\nb\nc\nd\n", none, ""⟩

/-- The chunks of the four lines under a budget of six bytes. -/
def straddlingChunks : List Chunk :=
  [⟨"a\nb\n", "fixed", ⟨0, 0⟩, ⟨2, 0⟩, ⟨0, 4⟩, .syntaxTree, ""⟩,
    ⟨"c\nd\n", "fixed", ⟨2, 0⟩, ⟨4, 0⟩, ⟨4, 8⟩, .syntaxTree, ""⟩]

theorem straddlingTree_wellFormed : straddlingTree.WellFormed :=
  Node.Orderly.wellFormed ⟨by decide, by decide, by decide⟩ (by decide)

theorem chunkDocument_straddlingTree :
    chunkDocument noGrammars (.fixed straddlingTree) (.withBudget 6 (by decide)) fourLines
      = .ok straddlingChunks := by
  have hspans : syntaxSpans (.withBudget 6 (by decide)) (.ofContents fourLines.contents)
      fourLines.contents straddlingTree = .ok [⟨0, 4⟩, ⟨4, 8⟩] := by decide +kernel
  rw [chunkDocument_fixed _ (by decide) (by decide) hspans]
  decide +kernel

theorem chunks_meet_at_nodes_straddlingTree :
    (Config.withBudget 6 (by decide)).splitLeaves = false ∧
      select noGrammars (.fixed straddlingTree) (Config.withBudget 6 (by decide)).timeout fourLines
        = .ok (some (straddlingTree, "fixed")) ∧
      straddlingTree.WellFormed ∧ straddlingTree.At 1 ⟨"a", -1, 4, false, []⟩ ∧
      (straddlingChunks.IsChain fun a b => a.span.stop = b.span.start ∧
        ∃ k n, straddlingTree.At k n ∧ n.start = b.span.start) ∧
      ∀ c ∈ straddlingChunks, c.span.start ≠ 0 → ¬ (-1 < c.span.start ∧ c.span.start < 4) := by
  have hselect : select noGrammars (.fixed straddlingTree)
      (Config.withBudget 6 (by decide)).timeout fourLines
        = .ok (some (straddlingTree, "fixed")) := select_fixed (by decide)
  have hleaf : straddlingTree.At 1 ⟨"a", -1, 4, false, []⟩ := .child .root (List.mem_cons_self ..)
  obtain ⟨chunks, hchunks, _, hmeet, hinside⟩ := chunks_meet_at_nodes rfl hselect
  rw [chunkDocument_straddlingTree] at hchunks
  cases hchunks
  exact ⟨rfl, hselect, straddlingTree_wellFormed, hleaf, hmeet, fun c hc =>
    (hinside straddlingTree_wellFormed 1 _ hleaf rfl c hc).1⟩

/-- A tree that reaches past the document is accepted and well-formed, and both ends of the document
lie inside a leaf of it. -/
theorem ends_inside_straddlingTree :
    straddlingTree.WellFormed ∧ (Config.withBudget 6 (by decide)).splitLeaves = false ∧
      select noGrammars (.fixed straddlingTree) (Config.withBudget 6 (by decide)).timeout fourLines
        = .ok (some (straddlingTree, "fixed")) ∧
      ∃ chunks, chunkDocument noGrammars (.fixed straddlingTree) (.withBudget 6 (by decide))
          fourLines = .ok chunks ∧
        (∃ c ∈ chunks, c.strategy = .syntaxTree ∧ ∃ k leaf, straddlingTree.At k leaf ∧
          leaf.children = [] ∧ leaf.start < c.span.start ∧ c.span.start < leaf.stop) ∧
        ∃ c ∈ chunks, c.strategy = .syntaxTree ∧ ∃ k leaf, straddlingTree.At k leaf ∧
          leaf.children = [] ∧ leaf.start < c.span.stop ∧ c.span.stop < leaf.stop := by
  have hfirst : straddlingTree.At 1 ⟨"a", -1, 4, false, []⟩ := .child .root (List.mem_cons_self ..)
  have hlast : straddlingTree.At 1 ⟨"b", 4, 10, false, []⟩ :=
    .child .root (List.mem_cons_of_mem _ (List.mem_singleton_self _))
  refine ⟨straddlingTree_wellFormed, rfl, select_fixed (by decide), straddlingChunks,
    chunkDocument_straddlingTree, ?_, ?_⟩
  · exact ⟨_, List.mem_cons_self, rfl, 1, _, hfirst, rfl, by decide, by decide⟩
  · exact ⟨_, List.mem_cons_of_mem _ List.mem_cons_self, rfl, 1, _, hlast, rfl, by decide,
      by decide⟩

end SyntaxChunks
