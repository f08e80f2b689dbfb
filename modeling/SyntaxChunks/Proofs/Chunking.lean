/-
# `Proofs.Chunking` — the three ways a document is cut

`chunkDocument_cases` takes a run apart: a document without bytes has no
chunks, and any other is cut along the tree that selection accepted, or into
windows of lines.  Either way each span has its chunk, because no span leaves
the contents.
-/
import SyntaxChunks.Chunking
import SyntaxChunks.Proofs.Joining
import SyntaxChunks.Proofs.Pieces
import SyntaxChunks.Proofs.Windows

namespace SyntaxChunks

/-! ## The chunk of a span -/

/-- The chunk is that of the span. -/
structure Document.ChunkAt (d : Document) (language : Text) (strategy : Strategy) (s : Span)
    (c : Chunk) : Prop where
  span : c.span = s
  text : c.text = d.sliceText s
  language : c.language = language
  strategy : c.strategy = strategy
  path : c.path = d.path
  startPoint : (LineIndex.ofContents d.contents).pointAt s.start = .ok c.startPoint
  stopPoint : (LineIndex.ofContents d.contents).pointAt s.stop = .ok c.stopPoint

variable {d : Document}

theorem Document.chunkAt_of_eq_ok {language : Text} {strategy : Strategy} {s : Span} {c : Chunk}
    (h : d.chunk (.ofContents d.contents) language strategy s = .ok c) :
    d.ChunkAt language strategy s c := by
  obtain ⟨p, hp, h⟩ := bind_eq_ok.mp h
  obtain ⟨q, hq, h⟩ := bind_eq_ok.mp h
  cases h
  exact ⟨rfl, rfl, rfl, rfl, rfl, hp, hq⟩

/-- The span lies inside the contents. -/
def Document.Inside (d : Document) (s : Span) : Prop :=
  0 ≤ s.start ∧ s.start ≤ s.stop ∧ s.stop ≤ d.contents.size

theorem Document.exists_chunk {language : Text} {strategy : Strategy} {s : Span}
    (h : d.Inside s) : ∃ c, d.chunk (.ofContents d.contents) language strategy s = .ok c := by
  obtain ⟨hstart, hle, hstop⟩ := h
  have hpoint : ∀ i : Int, 0 ≤ i → i ≤ d.contents.size →
      ∃ p, (LineIndex.ofContents d.contents).pointAt i = .ok p :=
    fun _ hlow hhigh => LineIndex.exists_pointAt hlow hhigh
  obtain ⟨p, hp⟩ := hpoint s.start hstart (Int.le_trans hle hstop)
  obtain ⟨q, hq⟩ := hpoint s.stop (Int.le_trans hstart hle) hstop
  exact ⟨_, bind_eq_ok.mpr ⟨p, hp, bind_eq_ok.mpr ⟨q, hq, rfl⟩⟩⟩

/-- Each span inside the contents gets its chunk. -/
theorem Document.exists_chunksOf {r : Route} (h : ∀ s ∈ r.spans, d.Inside s) :
    ∃ chunks, d.chunksOf r = .ok chunks ∧
      List.Forall₂ (d.ChunkAt r.language r.strategy) r.spans chunks := by
  obtain ⟨chunks, hchunks⟩ := exists_mapM_eq_ok fun s hs => Document.exists_chunk (h s hs)
  exact ⟨chunks, hchunks, (mapM_eq_ok.mp hchunks).imp fun _ _ => Document.chunkAt_of_eq_ok⟩

section

variable {language : Text} {strategy : Strategy} {spans : List Span} {chunks : List Chunk}

/-- What each chunk takes from its span, all chunks take from the spans. -/
theorem map_eq_of_chunkAt {α : Type} {f : Chunk → α} {g : Span → α}
    (hfg : ∀ s c, d.ChunkAt language strategy s c → f c = g s)
    (h : List.Forall₂ (d.ChunkAt language strategy) spans chunks) :
    chunks.map f = spans.map g := by
  induction h with
  | nil => rfl
  | cons hc _ ih => rw [List.map_cons, List.map_cons, hfg _ _ hc, ih]

theorem map_span_of_chunkAt (h : List.Forall₂ (d.ChunkAt language strategy) spans chunks) :
    chunks.map Chunk.span = spans :=
  (map_eq_of_chunkAt (fun _ _ hc => hc.span) h).trans (List.map_id _)

theorem chunkAt_of_mem (h : List.Forall₂ (d.ChunkAt language strategy) spans chunks) :
    ∀ c ∈ chunks, d.ChunkAt language strategy c.span c := by
  induction h with
  | nil => exact fun _ hc => absurd hc List.not_mem_nil
  | cons hhead _ ih =>
      intro c hc
      rcases List.mem_cons.mp hc with rfl | hc
      · rw [hhead.span]
        exact hhead
      · exact ih c hc

end

/-! ## The spans of a tree -/

/-- The spans of a tree before they are made contiguous: packed, and cut
further if that is asked for. -/
def boundedSpans (config : Config) (index : LineIndex) (contents : Contents) (root : Node) :
    Except SplitError (List Span) :=
  if config.splitLeaves then splitOversized contents index config.budget (pack config.budget root)
  else .ok (pack config.budget root)

theorem syntaxSpans_eq_ok {config : Config} {index : LineIndex} {contents : Contents} {root : Node}
    {spans : List Span} :
    syntaxSpans config index contents root = .ok spans ↔
      ∃ bounded, boundedSpans config index contents root = .ok bounded ∧
        spans = joinSingleLines contents (tile bounded 0 contents.size) := by
  have heq : syntaxSpans config index contents root =
      boundedSpans config index contents root >>= fun bounded =>
        .ok (joinSingleLines contents (tile bounded 0 contents.size)) := by
    unfold syntaxSpans boundedSpans
    cases config.splitLeaves <;> rfl
  rw [heq, bind_eq_ok]
  simp only [Except.ok.injEq, eq_comm]

/-- The spans of a tree tile the document. -/
theorem syntaxSpans_tiles {config : Config} {index : LineIndex} {contents : Contents} {root : Node}
    {spans : List Span} (h : syntaxSpans config index contents root = .ok spans) :
    Tiles 0 contents.size spans := by
  obtain ⟨bounded, _, rfl⟩ := syntaxSpans_eq_ok.mp h
  exact joinSingleLines_tiles (tile_tiles bounded (Int.natCast_nonneg _))

theorem Tiles.inside {spans : List Span} (h : Tiles 0 d.contents.size spans) :
    ∀ s ∈ spans, d.Inside s :=
  fun s hs => ⟨(h.bounds s hs).1, Int.le_of_lt (h.nonempty s hs), (h.bounds s hs).2⟩

theorem windowSpans_inside (w : LineWindow) :
    ∀ s ∈ w.spans (.ofContents d.contents), d.Inside s := by
  intro s hs
  obtain ⟨hstart, hlt, hstop⟩ := w.spans_bounds (LineIndex.sound_ofContents _) s hs
  exact ⟨hstart, Int.le_of_lt hlt, hstop⟩

/-! ## Runs -/

section

variable {grammars : Grammars} {registry : Registry} {config : Config}

/-- The chunks are those of the spans of the tree that selection accepted. -/
structure SyntaxRun (grammars : Grammars) (registry : Registry) (config : Config) (d : Document)
    (root : Node) (language : Text) (spans : List Span) (chunks : List Chunk) : Prop where
  selected : select grammars registry config.timeout d = .ok (some (root, language))
  cut : syntaxSpans config (.ofContents d.contents) d.contents root = .ok spans
  chunkAt : List.Forall₂ (d.ChunkAt language .syntaxTree) spans chunks

/-- A document has no bytes and no chunks, or is cut along a tree, or is cut
into windows of lines. -/
theorem chunkDocument_cases (grammars : Grammars) (registry : Registry) (config : Config)
    (d : Document) :
    ∃ chunks, chunkDocument grammars registry config d = .ok chunks ∧
      ((d.contents = #[] ∧ chunks = []) ∨
        (d.contents ≠ #[] ∧
          ((∃ root language spans,
              SyntaxRun grammars registry config d root language spans chunks) ∨
            List.Forall₂ (d.ChunkAt plainLanguage .lineWindow)
              (config.window.spans (.ofContents d.contents)) chunks))) := by
  have hwindows : ∀ reason, ∃ chunks,
      d.chunksOf (.windows reason (config.window.spans (.ofContents d.contents))) = .ok chunks ∧
        List.Forall₂ (d.ChunkAt plainLanguage .lineWindow)
          (config.window.spans (.ofContents d.contents)) chunks :=
    fun reason => Document.exists_chunksOf (windowSpans_inside config.window)
  unfold chunkDocument route
  split
  · next hempty => exact ⟨[], rfl, .inl ⟨Array.isEmpty_iff.mp hempty, rfl⟩⟩
  · next hsome =>
      have hne : d.contents ≠ #[] := fun h => hsome (Array.isEmpty_iff.mpr h)
      simp only [routeOf]
      split
      · next root language houtcome =>
          split
          · next spans hspans =>
              obtain ⟨chunks, hchunks, hat⟩ := Document.exists_chunksOf (d := d)
                (show ∀ s ∈ (Route.tree root language spans).spans, d.Inside s from
                  (syntaxSpans_tiles hspans).inside)
              exact ⟨chunks, hchunks,
                .inr ⟨hne, .inl ⟨root, language, spans, houtcome, hspans, hat⟩⟩⟩
          · obtain ⟨chunks, hchunks, hat⟩ := hwindows _
            exact ⟨chunks, hchunks, .inr ⟨hne, .inr hat⟩⟩
      · obtain ⟨chunks, hchunks, hat⟩ := hwindows _
        exact ⟨chunks, hchunks, .inr ⟨hne, .inr hat⟩⟩
      · obtain ⟨chunks, hchunks, hat⟩ := hwindows _
        exact ⟨chunks, hchunks, .inr ⟨hne, .inr hat⟩⟩

/-- Any chunk tells by its strategy how the document was cut. -/
theorem run_of_mem {chunks : List Chunk}
    (h : chunkDocument grammars registry config d = .ok chunks) {c : Chunk} (hc : c ∈ chunks) :
    (c.strategy = .syntaxTree ∧
        ∃ root language spans, SyntaxRun grammars registry config d root language spans chunks) ∨
      (c.strategy = .lineWindow ∧
        List.Forall₂ (d.ChunkAt plainLanguage .lineWindow)
          (config.window.spans (.ofContents d.contents)) chunks) := by
  obtain ⟨chunks', h', hcases⟩ := chunkDocument_cases grammars registry config d
  rw [h] at h'
  cases h'
  rcases hcases with ⟨_, rfl⟩ | ⟨_, ⟨root, language, spans, hrun⟩ | hwindows⟩
  · exact absurd hc List.not_mem_nil
  · exact .inl ⟨(chunkAt_of_mem hrun.chunkAt c hc).strategy, root, language, spans, hrun⟩
  · exact .inr ⟨(chunkAt_of_mem hwindows c hc).strategy, hwindows⟩

/-- A chunk from a tree shows that the run followed a tree. -/
theorem exists_syntaxRun {chunks : List Chunk}
    (h : chunkDocument grammars registry config d = .ok chunks)
    (htree : ∃ c ∈ chunks, c.strategy = .syntaxTree) :
    ∃ root language spans, SyntaxRun grammars registry config d root language spans chunks := by
  obtain ⟨c, hc, hstrategy⟩ := htree
  rcases run_of_mem h hc with ⟨_, hrun⟩ | ⟨hwindow, _⟩
  · exact hrun
  · rw [hstrategy] at hwindow
    cases hwindow

/-- A chunk from a window shows that the document was cut into windows. -/
theorem chunkAt_windows {chunks : List Chunk}
    (h : chunkDocument grammars registry config d = .ok chunks)
    (hwindow : ∃ c ∈ chunks, c.strategy = .lineWindow) :
    List.Forall₂ (d.ChunkAt plainLanguage .lineWindow)
      (config.window.spans (.ofContents d.contents)) chunks := by
  obtain ⟨c, hc, hstrategy⟩ := hwindow
  rcases run_of_mem h hc with ⟨htree, _⟩ | ⟨_, hwindows⟩
  · rw [hstrategy] at htree
    cases htree
  · exact hwindows

/-- With the tree that selection accepted, the run followed that tree. -/
theorem exists_syntaxRun_of_select {chunks : List Chunk} {root : Node} {language : Text}
    (hselect : select grammars registry config.timeout d = .ok (some (root, language)))
    (h : chunkDocument grammars registry config d = .ok chunks)
    (htree : ∃ c ∈ chunks, c.strategy = .syntaxTree) :
    ∃ spans, SyntaxRun grammars registry config d root language spans chunks := by
  obtain ⟨root', language', spans, hrun⟩ := exists_syntaxRun h htree
  have hsame := hselect.symm.trans hrun.selected
  cases hsame
  exact ⟨spans, hrun⟩

/-- A tree that selection accepted and that can be cut decides how the document is cut. -/
theorem route_of_select {root : Node} {language : Text} {spans : List Span}
    (hne : d.contents ≠ #[])
    (hselect : select grammars registry config.timeout d = .ok (some (root, language)))
    (hspans : syntaxSpans config (.ofContents d.contents) d.contents root = .ok spans) :
    (route grammars registry config d).route = .tree root language spans := by
  have hsome : ¬ d.contents.isEmpty = true := fun h => hne (Array.isEmpty_iff.mp h)
  have houtcome : outcomeOf (attempts grammars registry config.timeout d)
      = .ok (some (root, language)) := hselect
  unfold route
  simp only [if_neg hsome, houtcome, routeOf, hspans]

/-- A tree that selection accepted and that can be cut has its chunks. -/
theorem exists_syntaxRun_of_cut {root : Node} {language : Text} {spans : List Span}
    (hne : d.contents ≠ #[])
    (hselect : select grammars registry config.timeout d = .ok (some (root, language)))
    (hspans : syntaxSpans config (.ofContents d.contents) d.contents root = .ok spans) :
    ∃ chunks, chunkDocument grammars registry config d = .ok chunks ∧
      SyntaxRun grammars registry config d root language spans chunks := by
  obtain ⟨chunks, hchunks, hat⟩ := Document.exists_chunksOf (d := d)
    (show ∀ s ∈ (Route.tree root language spans).spans, d.Inside s from
      (syntaxSpans_tiles hspans).inside)
  refine ⟨chunks, ?_, hselect, hspans, hat⟩
  rw [chunkDocument, route_of_select hne hselect hspans]
  exact hchunks

/-! ## One language -/

/-- There are no grammars. -/
def noGrammars : Grammars := fun name => .error name

/-- The standard configuration with another budget. -/
def Config.withBudget (budget : Nat) (h : 0 < budget) : Config :=
  { Config.standard with budget := budget, budget_pos := h }

/-- The registry of one language, which finds the given tree in every text. -/
def Registry.fixed (root : Node) : Registry where
  entries := [⟨"fixed", .direct fun _ _ => .tree (some root), [], .both⟩]
  names_nodup := by simp

theorem select_fixed {root : Node} (h : isSuccessfulParse (some .both) (some root) = true) :
    select grammars (.fixed root) config.timeout d = .ok (some (root, "fixed")) := by
  have hnone : (Registry.fixed root).entryFor? d.extension = none := by
    simp [Registry.entryFor?, Registry.fixed]
  have horder : (Registry.fixed root).prioritized d.extension = (Registry.fixed root).entries := by
    unfold Registry.prioritized
    rw [hnone]
  rw [select, attempts, horder]
  simp only [Registry.fixed, attemptsWith, Entry.attempt, Provider.parse, Entry.judge, h, if_true,
    Verdict.isFinal, outcomeOf, List.getLast?_singleton]

/-- A tree that passes and can be cut decides how the document is cut. -/
theorem chunkDocument_fixed (grammars : Grammars) {root : Node} {spans : List Span}
    (h : isSuccessfulParse (some .both) (some root) = true) (hne : d.contents ≠ #[])
    (hspans : syntaxSpans config (.ofContents d.contents) d.contents root = .ok spans) :
    chunkDocument grammars (.fixed root) config d = d.chunksOf (.tree root "fixed" spans) := by
  rw [chunkDocument, route_of_select hne (select_fixed h) hspans]

/-- A tree that passes and can be cut has the chunks of its spans. -/
theorem exists_chunks_fixed (grammars : Grammars) {root : Node} {spans : List Span}
    (h : isSuccessfulParse (some .both) (some root) = true) (hne : d.contents ≠ #[])
    (hspans : syntaxSpans config (.ofContents d.contents) d.contents root = .ok spans) :
    ∃ chunks, chunkDocument grammars (.fixed root) config d = .ok chunks ∧
      List.Forall₂ (d.ChunkAt "fixed" .syntaxTree) spans chunks := by
  obtain ⟨chunks, hchunks, hrun⟩ :=
    exists_syntaxRun_of_cut hne (select_fixed h) hspans
  exact ⟨chunks, hchunks, hrun.chunkAt⟩

/-- Along a tree, the spans of the chunks tile the document. -/
theorem SyntaxRun.tiles {root : Node} {language : Text} {spans : List Span} {chunks : List Chunk}
    (h : SyntaxRun grammars registry config d root language spans chunks) :
    Tiles 0 d.contents.size (chunks.map Chunk.span) := by
  rw [map_span_of_chunkAt h.chunkAt]
  exact syntaxSpans_tiles h.cut

end

end SyntaxChunks
