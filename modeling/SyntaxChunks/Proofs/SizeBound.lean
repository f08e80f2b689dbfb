/-
# `Proofs.SizeBound` — how long a chunk of a tree can be

Packing and hard cuts keep to the budget, but closing gaps and joining single
lines make spans longer whatever the budget is, so that it does not bound the
chunks (`overrun_by_head_gap_tail`).  What does hold is `chunk_assembled`: a
chunk is a head on a single line, a core whose bytes of leaves keep to the
budget, and at the very end of the document a tail on a single line.
-/
import SyntaxChunks.Proofs.Chunking
import SyntaxChunks.Proofs.Packing

namespace SyntaxChunks

/-- The offset is that of a byte of a leaf. -/
def Node.OnLeaf (root : Node) (i : Int) : Prop :=
  ∃ k n, root.At k n ∧ n.children = [] ∧ n.span.Holds i

/-- The span is that of an atomic node, where nothing is split. -/
def Node.Unsplit (config : Config) (root : Node) (s : Span) : Prop :=
  config.splitLeaves = false ∧ ∃ k n, root.At k n ∧ n.Atomic k ∧ s = n.span

/-! ## Before gaps are closed -/

section

variable {config : Config} {contents : Contents} {root : Node} {bounded : List Span}

/-- No byte of a leaf lies in an empty or inverted root. -/
theorem Node.WellFormed.not_onLeaf (hwell : root.WellFormed) (hempty : root.stop ≤ root.start)
    (i : Int) : ¬ root.OnLeaf i := by
  rintro ⟨k, n, hn, _, hlow, hhigh⟩
  have hin := hwell.inside hn
  have hlow' : n.start ≤ i := hlow
  have hhigh' : i < n.stop := hhigh
  omega

theorem pack_nonempty_of_lt (budget : Int) (hlt : root.start < root.stop) :
    ∀ s ∈ pack budget root, s.start < s.stop := by
  rcases pack_nonempty budget root with hne | ⟨_, hwhole⟩
  · exact hne
  · intro s hs
    rw [hwhole, List.mem_singleton] at hs
    rw [hs]
    exact hlt

/-- The spans of a well-formed tree: non-empty, in order, each within the budget or unsplit, and
every byte of a leaf in one of them. -/
structure Bounded (config : Config) (root : Node) (bounded : List Span) : Prop where
  inOrder : InOrder root.start root.stop bounded
  nonempty : ∀ s ∈ bounded, s.start < s.stop
  fits : ∀ s ∈ bounded, s.length ≤ config.budget ∨ root.Unsplit config s
  holds : ∀ i, root.OnLeaf i → ∃ s ∈ bounded, s.Holds i

theorem bounded_of_eq_ok (hwell : root.WellFormed) (hlt : root.start < root.stop)
    (h : boundedSpans config (.ofContents contents) contents root = .ok bounded) :
    Bounded config root bounded := by
  have hpacked : InOrder root.start root.stop (pack config.budget root) :=
    pack_inOrder (Int.le_of_lt hlt)
  have hne := pack_nonempty_of_lt config.budget hlt
  have hheld : ∀ i, root.OnLeaf i → ∃ s ∈ pack config.budget root, s.Holds i := by
    rintro i ⟨k, n, hn, hleaf, hi⟩
    exact pack_holds hwell hn hleaf hi
  have hsound := LineIndex.sound_ofContents contents
  have hpos := config.budget_pos
  unfold boundedSpans at h
  split at h
  · refine ⟨splitOversized_inOrder hsound hpos h hpacked hne,
      splitOversized_nonempty hsound hpos h hne,
      fun s hs => .inl (splitOversized_fits hsound hpos h s hs), fun i hi => ?_⟩
    obtain ⟨s, hs, hsi⟩ := hheld i hi
    exact splitOversized_holds hsound hpos h hs hsi
  · next hsplit =>
      cases h
      refine ⟨hpacked, hne, fun s hs => ?_, hheld⟩
      rcases pack_fits s hs with hfit | ⟨k, n, hn, hwhole, rfl⟩
      · exact .inl hfit
      · have hatomic := (hwell k n hn).atomic_of_whole hwhole
        exact .inr ⟨Bool.eq_false_iff.mpr hsplit, k, n, hn, hatomic, rfl⟩

/-! ## After gaps are closed -/

/-- The part of a span that counts against the budget: all bytes of leaves in the span lie in the
window, which is within the budget or unsplit. -/
structure Window (config : Config) (root : Node) (s window : Span) : Prop where
  inside : s.start ≤ window.start ∧ window.stop ≤ s.stop
  holds : ∀ i, s.Holds i → root.OnLeaf i → window.Holds i
  fits : window.length ≤ config.budget ∨ root.Unsplit config window

theorem exists_window_of_not_onLeaf (hnone : ∀ i, ¬ root.OnLeaf i) {s : Span}
    (hs : s.start < s.stop) : ∃ window, Window config root s window := by
  refine ⟨⟨s.start, s.start⟩, ⟨Int.le_refl _, Int.le_of_lt hs⟩, fun i _ hi => absurd hi (hnone i),
    .inl ?_⟩
  simp only [Span.length]
  omega

/-- Each span of a well-formed tree, made contiguous, has its window. -/
theorem exists_window_of_mem_tile (hwell : root.WellFormed) (hstart : 0 ≤ root.start)
    (hstop : root.stop ≤ contents.size)
    (h : boundedSpans config (.ofContents contents) contents root = .ok bounded) :
    ∀ t ∈ tile bounded 0 contents.size, ∃ window, Window config root t window := by
  intro t ht
  have hne := (tile_tiles bounded (Int.natCast_nonneg contents.size)).nonempty t ht
  by_cases hlt : root.start < root.stop
  · have hbounded := bounded_of_eq_ok hwell hlt h
    by_cases hnil : bounded = []
    · refine exists_window_of_not_onLeaf (fun i hi => ?_) hne
      obtain ⟨s, hs, _⟩ := hbounded.holds i hi
      rw [hnil] at hs
      exact absurd hs List.not_mem_nil
    · have horder := hbounded.inOrder.weaken hstart hstop
      rw [tile_eq_stretch horder hbounded.nonempty hnil] at ht
      obtain ⟨_, s, hs, hleft, hright, hother⟩ := stretch_around horder t ht
      refine ⟨s, ⟨hleft, hright⟩, fun i hi hleaf => ?_, hbounded.fits s hs⟩
      obtain ⟨r, hr, hri⟩ := hbounded.holds i hleaf
      exact hother i hi r hr hri
  · exact exists_window_of_not_onLeaf (hwell.not_onLeaf (Int.not_lt.mp hlt)) hne

/-! ## After single lines are joined -/

/-- A chunk is a head on a single line, a core, and at the very end of the contents a tail on a
single line; head and tail may be empty. -/
structure Assembled (contents : Contents) (c core : Span) : Prop where
  inside : c.start ≤ core.start ∧ core.stop ≤ c.stop
  head : IsLine contents c.start core.start
  tail : IsLine contents core.stop c.stop
  last : core.stop = c.stop ∨ c.stop = contents.size

/-- The size that consumers are promised: within the budget, or around an unsplit atomic node that
is longer. -/
def WithinBudget (config : Config) (root : Node) (s : Span) : Prop :=
  s.length ≤ config.budget ∨ (config.splitLeaves = false ∧
    ∃ k n, root.At k n ∧ n.Atomic k ∧ config.budget < n.span.length ∧
      s.start ≤ n.start ∧ n.stop ≤ s.stop)

/-- A span without bytes outside the leaves is as long as its window. -/
theorem Window.withinBudget {s window : Span} (h : Window config root s window)
    (hleaves : ∀ i, s.Holds i → root.OnLeaf i) : WithinBudget config root s := by
  have hin := h.inside
  by_cases hs : s.start < s.stop
  · have hholds : ∀ i, s.Holds i → window.Holds i := fun i hi => h.holds i hi (hleaves i hi)
    have hfirst := (hholds s.start ⟨Int.le_refl _, hs⟩).1
    have hlast := (hholds (s.stop - 1) ⟨by omega, by omega⟩).2
    have hlength : s.length = window.length := by
      simp only [Span.length]
      omega
    by_cases hfit : window.length ≤ config.budget
    · exact .inl (hlength ▸ hfit)
    · obtain ⟨hsplit, k, n, hn, hatomic, rfl⟩ := h.fits.resolve_left hfit
      exact .inr ⟨hsplit, k, n, hn, hatomic, Int.not_le.mp hfit, hin.1, hin.2⟩
  · refine .inl ?_
    simp only [Span.length]
    omega

end

/-! ## Chunks -/

section

variable {grammars : Grammars} {registry : Registry} {config : Config} {d : Document}
  {root : Node} {language : Text} {chunks : List Chunk}

/-- A chunk of a well-formed tree is over the budget only by a head and a tail on a single line, by
bytes outside the leaves, and by an atomic node that is not split. -/
theorem chunk_assembled (hwell : root.WellFormed) (hstart : 0 ≤ root.start)
    (hstop : root.stop ≤ d.contents.size)
    (hselect : select grammars registry config.timeout d = .ok (some (root, language)))
    (hchunks : chunkDocument grammars registry config d = .ok chunks) :
    ∀ c ∈ chunks, c.strategy = .syntaxTree → ∃ core window,
      Assembled d.contents c.span core ∧ Window config root core window ∧
        ((∀ i, core.Holds i → root.OnLeaf i) → WithinBudget config root core) := by
  intro c hc htree
  obtain ⟨spans, hrun⟩ := exists_syntaxRun_of_select hselect hchunks ⟨c, hc, htree⟩
  obtain ⟨bounded, hbounded, rfl⟩ := syntaxSpans_eq_ok.mp hrun.cut
  have hmem : c.span ∈ joinSingleLines d.contents (tile bounded 0 d.contents.size) := by
    rw [← map_span_of_chunkAt hrun.chunkAt]
    exact List.mem_map_of_mem hc
  have htiles := tile_tiles bounded (Int.natCast_nonneg d.contents.size)
  obtain ⟨core, hcore, hleft, hright, hhead, htail, hlast⟩ :=
    joinSingleLines_around htiles c.span hmem
  obtain ⟨window, hwindow⟩ := exists_window_of_mem_tile hwell hstart hstop hbounded core hcore
  exact ⟨core, window, ⟨⟨hleft, hright⟩, hhead, htail, hlast⟩, hwindow, hwindow.withinBudget⟩

end

/-- Three leaves, of which the second is too long, with a line feed behind the first and behind the
second that belong to none. -/
def bulkyTree : Node :=
  ⟨"root", 0, 14, false,
    [⟨"a", 0, 1, false, []⟩, ⟨"b", 2, 11, false, []⟩, ⟨"c", 12, 14, false, []⟩]⟩

def bulkyDocument : Document :=
  ⟨.ofText "x\naaaa\nbbbb\n c", none, ""⟩

/-- The three leaves make one chunk, around the second. -/
def bulkyChunks : List Chunk :=
  [⟨"x\naaaa\nbbbb\n c", "fixed", ⟨0, 0⟩, ⟨3, 2⟩, ⟨0, 14⟩, .syntaxTree, ""⟩]

theorem chunk_assembled_bulky :
    bulkyTree.WellFormed ∧ 0 ≤ bulkyTree.start ∧ bulkyTree.stop ≤ bulkyDocument.contents.size ∧
      select noGrammars (.fixed bulkyTree) (Config.withBudget 4 (by decide)).timeout
        bulkyDocument = .ok (some (bulkyTree, "fixed")) ∧
      chunkDocument noGrammars (.fixed bulkyTree) (.withBudget 4 (by decide))
        bulkyDocument = .ok bulkyChunks ∧
      ∀ c ∈ bulkyChunks, c.strategy = .syntaxTree → ∃ core window,
        Assembled bulkyDocument.contents c.span core ∧
          Window (.withBudget 4 (by decide)) bulkyTree core window := by
  have hwell : bulkyTree.WellFormed :=
    Node.Orderly.wellFormed ⟨by decide, by decide, by decide⟩ (by decide)
  have hspans : syntaxSpans (.withBudget 4 (by decide)) (.ofContents bulkyDocument.contents)
      bulkyDocument.contents bulkyTree = .ok [⟨0, 14⟩] := by decide +kernel
  have hpass : isSuccessfulParse (some .both) (some bulkyTree) = true := by decide
  have hchunks : chunkDocument noGrammars (.fixed bulkyTree)
      (.withBudget 4 (by decide)) bulkyDocument = .ok bulkyChunks := by
    rw [chunkDocument_fixed _ hpass (by decide) hspans]
    decide +kernel
  refine ⟨hwell, by decide, by decide, select_fixed hpass, hchunks, fun c hc htree => ?_⟩
  obtain ⟨core, window, hcore, hwindow, _⟩ :=
    chunk_assembled hwell (by decide) (by decide) (select_fixed hpass) hchunks c hc htree
  exact ⟨core, window, hcore, hwindow⟩

/-! ## Chunks over the budget -/

/-- The tree is well-formed and lies inside the document, and one of its chunks breaks the promise
to consumers. -/
def Overrun (config : Config) (root : Node) (d : Document) : Prop :=
  root.WellFormed ∧ 0 ≤ root.start ∧ root.stop ≤ d.contents.size ∧
    select noGrammars (.fixed root) config.timeout d = .ok (some (root, "fixed")) ∧
    ∃ chunks, chunkDocument noGrammars (.fixed root) config d = .ok chunks ∧
      ∃ c ∈ chunks, c.strategy = .syntaxTree ∧ ¬ WithinBudget config root c.span

/-- A long span where everything is split makes an overrun. -/
theorem overrun_of_mem {config : Config} {root : Node} {d : Document} {spans : List Span}
    (hsplit : config.splitLeaves = true) (hwell : root.WellFormed) (hstart : 0 ≤ root.start)
    (hstop : root.stop ≤ d.contents.size) (hne : d.contents ≠ #[])
    (hpass : isSuccessfulParse (some .both) (some root) = true)
    (hspans : syntaxSpans config (.ofContents d.contents) d.contents root = .ok spans)
    (hover : ∃ s ∈ spans, config.budget < s.length) : Overrun config root d := by
  obtain ⟨chunks, hchunks, hat⟩ := exists_chunks_fixed noGrammars hpass hne hspans
  obtain ⟨s, hs, hlong⟩ := hover
  rw [← map_span_of_chunkAt hat] at hs
  obtain ⟨c, hc, rfl⟩ := List.mem_map.mp hs
  refine ⟨hwell, hstart, hstop, select_fixed hpass, chunks, hchunks, c, hc,
    (chunkAt_of_mem hat c hc).strategy, ?_⟩
  rintro (hfit | ⟨hnot, _⟩)
  · omega
  · rw [hsplit] at hnot
    cases hnot

/-- A budget of four bytes, and leaves are split. -/
def splitAtFour : Config :=
  { Config.withBudget 4 (by decide) with splitLeaves := true }

/-- A root over two leaves, the first of which starts and the second of which stops with it. -/
def twoLeaves (first second stop : Int) : Node :=
  ⟨"root", 0, stop, false, [⟨"a", 0, first, false, []⟩, ⟨"b", second, stop, false, []⟩]⟩

/-- Chunks come to be over the budget by a single line that is joined to the span behind it, by
line feeds between two leaves, and by a single line that is joined to the last span. -/
theorem overrun_by_head_gap_tail :
    Overrun splitAtFour (twoLeaves 2 2 5) ⟨.ofText "a\nb\nc", none, ""⟩ ∧
      Overrun splitAtFour (twoLeaves 3 5 8) ⟨.ofText "a\nb\n\nc\nd", none, ""⟩ ∧
      Overrun splitAtFour (twoLeaves 3 3 5) ⟨.ofText "a\nb c", none, ""⟩ := by
  have hhead : syntaxSpans splitAtFour (.ofContents (.ofText "a\nb\nc")) (.ofText "a\nb\nc")
      (twoLeaves 2 2 5) = .ok [⟨0, 5⟩] := by decide +kernel
  have hgap : syntaxSpans splitAtFour (.ofContents (.ofText "a\nb\n\nc\nd"))
      (.ofText "a\nb\n\nc\nd") (twoLeaves 3 5 8) = .ok [⟨0, 5⟩, ⟨5, 8⟩] := by decide +kernel
  have htail : syntaxSpans splitAtFour (.ofContents (.ofText "a\nb c")) (.ofText "a\nb c")
      (twoLeaves 3 3 5) = .ok [⟨0, 5⟩] := by decide +kernel
  refine ⟨overrun_of_mem rfl (.wellFormed ⟨?_, ?_, ?_⟩ ?_) ?_ ?_ ?_ ?_ hhead ?_,
    overrun_of_mem rfl (.wellFormed ⟨?_, ?_, ?_⟩ ?_) ?_ ?_ ?_ ?_ hgap ?_,
    overrun_of_mem rfl (.wellFormed ⟨?_, ?_, ?_⟩ ?_) ?_ ?_ ?_ ?_ htail ?_⟩ <;> decide

end SyntaxChunks
