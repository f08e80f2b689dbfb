/-
# `Proofs.Coverage` — no byte of a document is lost

Whatever a provider hands back, the chunks of a tree tile the document, byte
for byte and point for point (`chunkDocument_tiles`).  Whatever a provider
does, a document has chunks, and they cover it (`chunkDocument_covers`).
-/
import SyntaxChunks.Proofs.Chunking

namespace SyntaxChunks

/-! ## Chunks of a tree -/

section

variable {grammars : Grammars} {registry : Registry} {config : Config} {d : Document}

theorem SyntaxRun.flatMap_slice {root : Node} {language : Text} {spans : List Span}
    {chunks : List Chunk} (h : SyntaxRun grammars registry config d root language spans chunks) :
    (chunks.flatMap fun c => (d.contents.slice c.span.start c.span.stop).toList)
      = d.contents.toList := by
  have hslices := h.tiles.flatMap_slice (Int.le_refl 0) (Int.le_refl _)
  rw [List.flatMap_map, slice_all] at hslices
  exact hslices

/-- Where one chunk ends the next one starts, so they have that point in common. -/
theorem SyntaxRun.points_meet {root : Node} {language : Text} {spans : List Span}
    {chunks : List Chunk} (h : SyntaxRun grammars registry config d root language spans chunks) :
    chunks.IsChain fun a b => a.stopPoint = b.startPoint := by
  have hmeet := (List.isChain_map Chunk.span).mp h.tiles.isChain
  refine hmeet.imp_of_mem_imp fun a b ha hb hab => ?_
  have hstop := (chunkAt_of_mem h.chunkAt a ha).stopPoint
  have hstart := (chunkAt_of_mem h.chunkAt b hb).startPoint
  rw [hab, hstart] at hstop
  exact (Except.ok.inj hstop).symm

/-- If any chunk comes from a tree, all come from the one that selection
accepted.  They tile the document, so that their slices add up to it, and each
ends at the point where the next one starts. -/
theorem chunkDocument_tiles {chunks : List Chunk}
    (h : chunkDocument grammars registry config d = .ok chunks)
    (htree : ∃ c ∈ chunks, c.strategy = .syntaxTree) :
    Tiles 0 d.contents.size (chunks.map Chunk.span) ∧
      (chunks.flatMap fun c => (d.contents.slice c.span.start c.span.stop).toList)
        = d.contents.toList ∧
      (chunks.IsChain fun a b => a.stopPoint = b.startPoint) ∧
      ∃ root language, select grammars registry config.timeout d = .ok (some (root, language)) ∧
        ∀ c ∈ chunks, c.strategy = .syntaxTree ∧ c.language = language := by
  obtain ⟨root, language, spans, hrun⟩ := exists_syntaxRun h htree
  refine ⟨hrun.tiles, hrun.flatMap_slice, hrun.points_meet, root, language, hrun.selected, ?_⟩
  intro c hc
  have hat := chunkAt_of_mem hrun.chunkAt c hc
  exact ⟨hat.strategy, hat.language⟩

end

/-- A tree that leaves the contents at both ends, and one of whose nodes has an
inverted child. -/
def unruly : Node :=
  ⟨"root", -3, 40, false,
    [⟨"a", 2, 4, false, []⟩, ⟨"b", 4, 13, false, [⟨"c", 9, 5, false, []⟩]⟩,
      ⟨"d", 13, 30, false, []⟩]⟩

/-- The document that the tree is said to be of. -/
def unrulyDocument : Document :=
  ⟨.ofText "a\nb\ncc\ndd\né\nf\n", none, "m.txt"⟩

/-- The chunks of the document under a budget of five bytes. -/
def unrulyChunks : List Chunk :=
  [⟨"a\nb\n", "fixed", ⟨0, 0⟩, ⟨2, 0⟩, ⟨0, 4⟩, .syntaxTree, "m.txt"⟩,
    ⟨"cc\ndd\né\nf\n", "fixed", ⟨2, 0⟩, ⟨6, 0⟩, ⟨4, 15⟩, .syntaxTree, "m.txt"⟩]

theorem chunkDocument_tiles_unruly :
    chunkDocument noGrammars (.fixed unruly) (.withBudget 5 (by decide)) unrulyDocument
        = .ok unrulyChunks ∧
      (∃ c ∈ unrulyChunks, c.strategy = .syntaxTree) ∧
      Tiles 0 15 (unrulyChunks.map Chunk.span) := by
  have hspans : syntaxSpans (.withBudget 5 (by decide)) (.ofContents unrulyDocument.contents)
      unrulyDocument.contents unruly = .ok [⟨0, 4⟩, ⟨4, 15⟩] := by decide +kernel
  have hrun : chunkDocument noGrammars (.fixed unruly) (.withBudget 5 (by decide))
      unrulyDocument = .ok unrulyChunks := by
    rw [chunkDocument_fixed _ (by decide) (by decide) hspans]
    decide +kernel
  have htree : ∃ c ∈ unrulyChunks, c.strategy = .syntaxTree := ⟨_, List.mem_cons_self, rfl⟩
  exact ⟨hrun, htree, (chunkDocument_tiles hrun htree).1⟩

/-! ## Chunks of any document -/

section

variable {d : Document} {chunks : List Chunk}

theorem exists_chunk_of_exists_span {i : Int} (h : ∃ s ∈ chunks.map Chunk.span, s.Holds i) :
    ∃ c ∈ chunks, c.span.Holds i := by
  obtain ⟨s, hs, hi⟩ := h
  obtain ⟨c, hc, rfl⟩ := List.mem_map.mp hs
  exact ⟨c, hc, hi⟩

theorem SyntaxRun.exists_holds {grammars : Grammars} {registry : Registry} {config : Config}
    {root : Node} {language : Text} {spans : List Span}
    (h : SyntaxRun grammars registry config d root language spans chunks) {i : Nat}
    (hi : i < d.contents.size) : ∃ c ∈ chunks, c.span.Holds i :=
  exists_chunk_of_exists_span (h.tiles.exists_holds (Int.natCast_nonneg i) (Int.ofNat_lt.mpr hi))

theorem LineWindow.exists_holds {w : LineWindow}
    (h : chunks.map Chunk.span = w.spans (.ofContents d.contents)) {i : Nat}
    (hi : i < d.contents.size) : ∃ c ∈ chunks, c.span.Holds i := by
  refine exists_chunk_of_exists_span ?_
  rw [h]
  exact w.spans_cover (LineIndex.sound_ofContents _) hi

/-- Where every byte lies in a chunk, only contents without bytes have no chunks. -/
theorem eq_nil_iff_of_holds
    (hholds : ∀ i : Nat, i < d.contents.size → ∃ c ∈ chunks, c.span.Holds i)
    (hne : d.contents ≠ #[]) : chunks = [] ↔ d.contents = #[] := by
  refine ⟨fun hnil => ?_, fun hempty => absurd hempty hne⟩
  refine Array.eq_empty_of_size_eq_zero (Nat.eq_zero_of_not_pos fun hpos => ?_)
  obtain ⟨c, hc, _⟩ := hholds 0 hpos
  rw [hnil] at hc
  exact absurd hc List.not_mem_nil

end

/-- Only a document without bytes has no chunks. -/
theorem eq_nil_iff_of_chunkDocument {grammars : Grammars} {registry : Registry} {config : Config}
    {d : Document} {chunks : List Chunk}
    (h : chunkDocument grammars registry config d = .ok chunks) :
    chunks = [] ↔ d.contents = #[] := by
  obtain ⟨own, hown, hcases⟩ := chunkDocument_cases grammars registry config d
  rw [h] at hown
  cases hown
  rcases hcases with ⟨hempty, rfl⟩ | ⟨hne, ⟨root, language, spans, hrun⟩ | hwindows⟩
  · simp [hempty]
  · exact eq_nil_iff_of_holds (fun _ => hrun.exists_holds) hne
  · exact eq_nil_iff_of_holds
      (fun _ => LineWindow.exists_holds (map_span_of_chunkAt hwindows)) hne

/-- A document always has chunks, and none only if it has no bytes.  They are
all of a tree and tile the document, or are all windows of lines; either way
none is empty and every byte lies in one.  Nothing on the way runs forever:
a hard cut always lies behind the start of its piece. -/
theorem chunkDocument_covers (grammars : Grammars) (registry : Registry) (config : Config)
    (d : Document) :
    ∃ chunks, chunkDocument grammars registry config d = .ok chunks ∧
      (chunks = [] ↔ d.contents = #[]) ∧
      (((∀ c ∈ chunks, c.strategy = .syntaxTree) ∧
          Tiles 0 d.contents.size (chunks.map Chunk.span)) ∨
        ((∀ c ∈ chunks, c.strategy = .lineWindow ∧ c.language = plainLanguage) ∧
          LineWindow.spansOf config.window.lines config.window.overlap (.ofContents d.contents)
            = .ok (chunks.map Chunk.span))) ∧
      (∀ c ∈ chunks, c.span.start < c.span.stop) ∧
      (∀ i : Nat, i < d.contents.size → ∃ c ∈ chunks, c.span.Holds i) ∧
      ∀ window start cut,
        nextCut d.contents (.ofContents d.contents) config.budget window start = .ok cut →
          start < cut := by
  have hadvance : ∀ window start cut,
      nextCut d.contents (.ofContents d.contents) config.budget window start = .ok cut →
        start < cut :=
    fun _ _ _ hcut =>
      (nextCut_bounds (LineIndex.sound_ofContents _) config.budget_pos hcut).1
  obtain ⟨chunks, hchunks, hcases⟩ := chunkDocument_cases grammars registry config d
  have hnil := eq_nil_iff_of_chunkDocument hchunks
  rcases hcases with ⟨hempty, rfl⟩ | ⟨_, ⟨root, language, spans, hrun⟩ | hwindows⟩
  · refine ⟨[], hchunks, hnil, .inl ⟨by simp, ?_⟩, by simp, ?_, hadvance⟩
    · rw [hempty]
      exact .nil
    · rw [hempty]
      exact fun i hi => absurd hi (Nat.not_lt_zero i)
  · have hstrategy : ∀ c ∈ chunks, c.strategy = .syntaxTree :=
      fun c hc => (chunkAt_of_mem hrun.chunkAt c hc).strategy
    have hnonempty : ∀ c ∈ chunks, c.span.start < c.span.stop :=
      fun c hc => hrun.tiles.nonempty c.span (List.mem_map_of_mem hc)
    exact ⟨chunks, hchunks, hnil, .inl ⟨hstrategy, hrun.tiles⟩, hnonempty,
      fun _ => hrun.exists_holds, hadvance⟩
  · have hspans := map_span_of_chunkAt hwindows
    have hplain : ∀ c ∈ chunks, c.strategy = .lineWindow ∧ c.language = plainLanguage := by
      intro c hc
      have hat := chunkAt_of_mem hwindows c hc
      exact ⟨hat.strategy, hat.language⟩
    have hnonempty : ∀ c ∈ chunks, c.span.start < c.span.stop := by
      intro c hc
      have hmem := List.mem_map_of_mem (f := Chunk.span) hc
      rw [hspans] at hmem
      exact (config.window.spans_bounds (LineIndex.sound_ofContents _) c.span hmem).2.1
    refine ⟨chunks, hchunks, hnil, .inr ⟨hplain, ?_⟩, hnonempty,
      fun _ => LineWindow.exists_holds hspans, hadvance⟩
    rw [hspans]
    exact config.window.spansOf_self _

end SyntaxChunks
