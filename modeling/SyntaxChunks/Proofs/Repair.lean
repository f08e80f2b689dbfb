/-
# `Proofs.Repair` — gaps are closed, and nothing else is changed

Any spans at all are made to tile a range, and each boundary between two tiles is the start of a
given span; the first span gives none, since its tile starts where the range does.

Spans that are in order and have bytes lose nothing on the way: every one is stretched
(`tile_eq_stretch`), so that its tile reaches around it and up to the next one.  A tiling has no gap
to close, and so stays what it is (`Tiles.tile_eq`).
-/
import SyntaxChunks.Proofs.Packing
import SyntaxChunks.Proofs.Tiles

namespace SyntaxChunks

section

variable {start stop : Int} {spans : List Span}

/-! ## Stretched spans -/

theorem forall₂_around_stretch :
    ∀ {left : Int} {spans : List Span}, InOrder left stop spans →
      List.Forall₂ Span.Around (stretch left stop spans) spans
  | _, [], _ => .nil
  | _, [_], .cons hle _ hnil => .cons ⟨hle, hnil.le⟩ .nil
  | _, _ :: t :: _, .cons hle _ (.cons hst ht hrest) =>
      .cons ⟨hle, hst⟩ (forall₂_around_stretch (.cons (Int.le_refl t.start) ht hrest))

/-- A stretched span ends where the next of the given spans starts, and the last one where the range
does. -/
theorem map_stop_stretch :
    ∀ {left : Int} {spans : List Span}, spans ≠ [] →
      (stretch left stop spans).map Span.stop = spans.tail.map Span.start ++ [stop]
  | _, [], hnil => absurd rfl hnil
  | _, [_], _ => rfl
  | _, _ :: t :: rest, _ =>
      congrArg (t.start :: ·) (map_stop_stretch (List.cons_ne_nil t rest))

theorem Tiles.stretch_eq (h : Tiles start stop spans) : stretch start stop spans = spans := by
  induction h with
  | nil => rfl
  | cons _ hrest ih =>
      cases hrest with
      | nil => rfl
      | cons _ _ => exact congrArg (_ :: ·) ih

/-! ## Tilings -/

/-- In a tiling there is no gap to close. -/
theorem Tiles.tile_eq (h : Tiles start stop spans) (hlt : start < stop) :
    tile spans start stop = spans := by
  have hnil : spans ≠ [] := by
    rintro rfl
    exact absurd h.eq_of_nil (Int.ne_of_lt hlt)
  exact (tile_eq_stretch h.inOrder h.nonempty hnil).trans h.stretch_eq

/-- Between two tiles there is the start of a given span, other than the first. -/
theorem exists_start_of_mem_tile (hlt : start < stop) :
    ∀ p ∈ (tile spans start stop).dropLast, ∃ s ∈ spans.tail, p.stop = s.start := by
  intro p hp
  have htiles := tile_tiles spans (Int.le_of_lt hlt)
  have hmem := List.dropLast_subset _ hp
  have hcut : p.Ends fun i => i = start ∨ i = stop ∨ ∃ s ∈ spans.tail, i = s.start :=
    ends_tile (.inl rfl) (.inr (.inl rfl)) (fun s hs => .inr (.inr ⟨s, hs, rfl⟩)) p hmem
  have hbefore := htiles.stop_lt p hp
  have hbounds := htiles.bounds p hmem
  have hne := htiles.nonempty p hmem
  rcases hcut.2 with heq | heq | hstart
  · omega
  · omega
  · exact hstart

/-- Whatever the spans are, they are made to tile the range, with no boundary between two tiles but
the starts of given spans other than the first, and to do it again changes nothing.  If there are
spans, and they are in order inside the range and have bytes, there is one tile for each; it reaches
around its span and ends where the next span starts, the last one at the end of the range. -/
theorem tile_repairs_and_keeps (hlt : start < stop) (spans : List Span) :
    Tiles start stop (tile spans start stop) ∧
      (∀ p ∈ (tile spans start stop).dropLast, ∃ s ∈ spans.tail, p.stop = s.start) ∧
      tile (tile spans start stop) start stop = tile spans start stop ∧
      (spans ≠ [] → InOrder start stop spans → (∀ s ∈ spans, s.start < s.stop) →
        (tile spans start stop).length = spans.length ∧
        List.Forall₂ Span.Around (tile spans start stop) spans ∧
        (tile spans start stop).map Span.stop = spans.tail.map Span.start ++ [stop]) := by
  have htiles := tile_tiles spans (Int.le_of_lt hlt)
  refine ⟨htiles, exists_start_of_mem_tile hlt, htiles.tile_eq hlt, fun hnil horder hne => ?_⟩
  rw [tile_eq_stretch horder hne hnil]
  have haround : List.Forall₂ Span.Around (stretch start stop spans) spans :=
    forall₂_around_stretch horder
  exact ⟨haround.length_eq, haround, map_stop_stretch hnil⟩

end

/-- Three spans with gaps before, between and behind them. -/
def gappedSpans : List Span :=
  [⟨2, 10⟩, ⟨12, 20⟩, ⟨25, 30⟩]

/-- Spans that turn around, overlap, go back and leave the range at both ends. -/
def unrulySpans : List Span :=
  [⟨40, 3⟩, ⟨12, 20⟩, ⟨-5, 50⟩, ⟨12, 9⟩, ⟨30, 31⟩, ⟨90, 99⟩]

theorem tile_repairs_and_keeps_gappedSpans :
    (0 : Int) < 33 ∧ gappedSpans ≠ [] ∧ InOrder 0 33 gappedSpans ∧
      (∀ s ∈ gappedSpans, s.start < s.stop) ∧
      tile gappedSpans 0 33 = [⟨0, 12⟩, ⟨12, 25⟩, ⟨25, 33⟩] ∧
      List.Forall₂ Span.Around (tile gappedSpans 0 33) gappedSpans ∧
      tile unrulySpans 0 33 = [⟨0, 12⟩, ⟨12, 30⟩, ⟨30, 33⟩] ∧
      ∃ s ∈ unrulySpans.tail, Span.stop ⟨0, 12⟩ = s.start := by
  have hlt : (0 : Int) < 33 := by decide
  have horder : InOrder 0 33 gappedSpans :=
    .of_pairwise (by decide) (by decide) (by decide)
  obtain ⟨_, _, _, hkeeps⟩ := tile_repairs_and_keeps hlt gappedSpans
  obtain ⟨_, haround, _⟩ := hkeeps (by decide) horder (by decide)
  obtain ⟨_, hboundary, _⟩ := tile_repairs_and_keeps hlt unrulySpans
  exact ⟨hlt, by decide, horder, by decide, by decide, haround, by decide,
    hboundary ⟨0, 12⟩ (by decide)⟩

end SyntaxChunks
