/-
# `Proofs.TreeRoute` — a tree inside the document is followed

A cut is refused only where no byte stands, or where the budget is beyond
double precision.  Packing keeps the spans of a root that lies inside the
document inside that root, whatever lies below it: a node is looked into only
if its children keep to it.  So nothing on the way along such a tree fails, and
the document is not cut into windows (`chunkDocument_follows_tree`).
-/
import SyntaxChunks.Proofs.Chunking
import SyntaxChunks.Proofs.Packing

namespace SyntaxChunks

section

variable {config : Config} {contents : Contents} {root : Node}

/-- The packed spans of a root inside the contents lie inside them. -/
theorem pack_inside (budget : Int) (hstart : 0 ≤ root.start) (hupright : root.start ≤ root.stop)
    (hstop : root.stop ≤ contents.size) :
    ∀ s ∈ pack budget root, 0 ≤ s.start ∧ s.stop ≤ contents.size := by
  intro s hs
  have hbounds := (pack_inOrder hupright).bounds s hs
  omega

/-- The hard cuts through the spans of a root inside the contents succeed. -/
theorem exists_splitOversized_pack (hbudget : config.budget < budgetLimit) (hstart : 0 ≤ root.start)
    (hupright : root.start ≤ root.stop) (hstop : root.stop ≤ contents.size) :
    ∃ pieces, splitOversized contents (.ofContents contents) config.budget
      (pack config.budget root) = .ok pieces := by
  obtain ⟨window, hwindow⟩ := exists_cutWindow hbudget
  obtain ⟨parts, hparts, _⟩ := exists_cutRuns (LineIndex.sound_ofContents contents)
    config.budget_pos hwindow (pack_inside _ hstart hupright hstop)
  exact ⟨parts.flatten, hparts⟩

/-- A root inside the contents has its spans. -/
theorem exists_syntaxSpans (hbudget : config.budget < budgetLimit) (hstart : 0 ≤ root.start)
    (hupright : root.start ≤ root.stop) (hstop : root.stop ≤ contents.size) :
    ∃ spans, syntaxSpans config (.ofContents contents) contents root = .ok spans := by
  obtain ⟨bounded, hbounded⟩ :
      ∃ bounded, boundedSpans config (.ofContents contents) contents root = .ok bounded := by
    unfold boundedSpans
    split
    · exact exists_splitOversized_pack hbudget hstart hupright hstop
    · exact ⟨_, rfl⟩
  exact ⟨_, syntaxSpans_eq_ok.mpr ⟨bounded, hbounded, rfl⟩⟩

end

section

variable {grammars : Grammars} {registry : Registry} {config : Config} {d : Document} {root : Node}
  {language : Text}

theorem SyntaxRun.ne_nil {spans : List Span} {chunks : List Chunk}
    (h : SyntaxRun grammars registry config d root language spans chunks)
    (hne : d.contents ≠ #[]) : chunks ≠ [] := by
  rintro rfl
  have hsize : (0 : Int) = d.contents.size := h.tiles.eq_of_nil
  exact hne (Array.eq_empty_of_size_eq_zero (by omega))

/-- If selection accepts a root inside a document with bytes, its spans can be cut, and the document
is cut along the tree and not into windows, whatever lies below the root and whatever the bytes
are. -/
theorem chunkDocument_follows_tree (hne : d.contents ≠ #[]) (hbudget : config.budget < budgetLimit)
    (hselect : select grammars registry config.timeout d = .ok (some (root, language)))
    (hstart : 0 ≤ root.start) (hupright : root.start ≤ root.stop)
    (hstop : root.stop ≤ d.contents.size) :
    (∃ pieces, splitOversized d.contents (.ofContents d.contents) config.budget
        (pack config.budget root) = .ok pieces) ∧
      ∃ spans chunks, syntaxSpans config (.ofContents d.contents) d.contents root = .ok spans ∧
        (route grammars registry config d).route = .tree root language spans ∧
        chunkDocument grammars registry config d = .ok chunks ∧ chunks ≠ [] ∧
        ∀ c ∈ chunks, c.strategy = .syntaxTree ∧ c.language = language := by
  obtain ⟨spans, hspans⟩ := exists_syntaxSpans hbudget hstart hupright hstop
  obtain ⟨chunks, hchunks, hrun⟩ := exists_syntaxRun_of_cut hne hselect hspans
  refine ⟨exists_splitOversized_pack hbudget hstart hupright hstop, spans, chunks, hspans,
    route_of_select hne hselect hspans, hchunks, hrun.ne_nil hne, fun c hc => ?_⟩
  have hat := chunkAt_of_mem hrun.chunkAt c hc
  exact ⟨hat.strategy, hat.language⟩

end

/-- A root inside nine bytes over a child that leaves the contents at both ends. -/
def wildTree : Node :=
  ⟨"root", 1, 8, false, [⟨"a", 1, 8, false, [⟨"b", -5, 40, false, []⟩]⟩]⟩

/-- Bytes that are no text: continuation bytes around a line feed. -/
def brokenDocument : Document :=
  ⟨#[0xFF, 0x80, 0x80, 0x80, 0x80, 0x0A, 0x80, 0x80, 0x80], none, "broken"⟩

/-- A budget of two bytes, and leaves are split. -/
def splitAtTwo : Config :=
  { Config.withBudget 2 (by decide) with splitLeaves := true }

theorem chunkDocument_follows_tree_wild :
    brokenDocument.contents ≠ #[] ∧ splitAtTwo.budget < budgetLimit ∧
      select noGrammars (.fixed wildTree) splitAtTwo.timeout brokenDocument
        = .ok (some (wildTree, "fixed")) ∧
      0 ≤ wildTree.start ∧ wildTree.start ≤ wildTree.stop ∧
      wildTree.stop ≤ brokenDocument.contents.size ∧
      ∃ spans, (route noGrammars (.fixed wildTree) splitAtTwo brokenDocument).route
        = .tree wildTree "fixed" spans := by
  have hne : brokenDocument.contents ≠ #[] := by decide
  have hbudget : splitAtTwo.budget < budgetLimit := by decide +kernel
  have hselect : select noGrammars (.fixed wildTree) splitAtTwo.timeout brokenDocument
      = .ok (some (wildTree, "fixed")) := select_fixed (by decide)
  obtain ⟨_, spans, _, _, hroute, _⟩ :=
    chunkDocument_follows_tree hne hbudget hselect (by decide) (by decide) (by decide)
  exact ⟨hne, hbudget, hselect, by decide, by decide, by decide, spans, hroute⟩

end SyntaxChunks
