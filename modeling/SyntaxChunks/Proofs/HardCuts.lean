/-
# `Proofs.HardCuts` — what hard cuts make of a span, and where they fall

Whatever the bytes are, the cuts through a span come to an end, and leave it as it is or in pieces
within the budget (`splitOversized_within_budget`).

In a text a cut has a place of its own: behind the last line feed in the window before the budget,
and without one at the last boundary within the budget (`cutPlace_of_nextCut`).  The search back
from the budget stops short of the start of the piece without a look at the byte there.  It does no
harm where the first character of the piece fits into the budget: the search meets the end of that
character before it meets its limit.
-/
import Mathlib.Order.Bounds.Defs
import SyntaxChunks.Proofs.Boundaries
import SyntaxChunks.Proofs.Pieces

namespace SyntaxChunks

open Text.Utf8

/-! ## Pieces within the budget -/

/-- The span is kept if it is within the budget, and else divided into two or more pieces within the
budget that tile it. -/
structure Span.CutInto (budget : Nat) (s : Span) (pieces : List Span) : Prop where
  kept : s.length ≤ budget → pieces = [s]
  several : budget < s.length → 2 ≤ pieces.length
  tiles : budget < s.length → Tiles s.start s.stop pieces
  within : ∀ p ∈ pieces, p.length ≤ budget

section

variable {contents : Contents} {index : LineIndex} {budget window : Nat} {spans : List Span}

theorem CutRun.cutInto (hindex : index.Sound) (hbudget : 0 < budget) {s : Span}
    {pieces : List Span} (h : CutRun contents index budget window s.stop s.start pieces) :
    s.CutInto budget pieces where
  kept := by
    intro hfit
    cases h with
    | fits _ => rfl
    | cut hover _ _ => exact absurd hover (Int.not_lt.mpr hfit)
  several := by
    intro hover
    cases h with
    | fits hfit => exact absurd hover (Int.not_lt.mpr hfit)
    | cut _ _ hrest =>
        have hrest : 0 < _ := List.length_pos_of_ne_nil hrest.ne_nil
        rw [List.length_cons]
        omega
  tiles := by
    intro hover
    have hlt : s.start < s.stop := by
      simp only [Span.length] at hover
      omega
    exact h.tiles hindex hbudget hlt
  within := h.within hindex hbudget

/-- Spans inside the contents are cut one after the other, by cuts that come to an end: each span is
kept if it is within the budget, and else divided into pieces within the budget that tile it. -/
theorem splitOversized_within_budget (hbudget : 0 < budget) (hlimit : budget < budgetLimit)
    (hspans : ∀ s ∈ spans, 0 ≤ s.start ∧ s.start ≤ s.stop ∧ s.stop ≤ contents.size) :
    ∃ window parts, cutWindow budget = .ok window ∧
      splitOversized contents (.ofContents contents) budget spans = .ok parts.flatten ∧
      List.Forall₂ (fun s pieces =>
        CutRun contents (.ofContents contents) budget window s.stop s.start pieces ∧
          s.CutInto budget pieces) spans parts := by
  have hindex := LineIndex.sound_ofContents contents
  obtain ⟨window, hwindow⟩ := exists_cutWindow hlimit
  obtain ⟨parts, hparts, hruns⟩ := exists_cutRuns hindex hbudget hwindow fun s hs =>
    ⟨(hspans s hs).1, (hspans s hs).2.2⟩
  refine ⟨window, parts, hwindow, hparts, hruns.imp fun s pieces hrun => ?_⟩
  exact ⟨hrun, hrun.cutInto hindex hbudget⟩

end

/-- Bytes that are no text: a line feed among continuation bytes. -/
def brokenBytes : Contents :=
  #[0x80, 0x80, 0x80, 0x0A, 0x80, 0xFF, 0x80]

/-- A long span, one of just the budget and one without bytes. -/
def spansOfBrokenBytes : List Span :=
  [⟨0, 7⟩, ⟨5, 7⟩, ⟨4, 4⟩]

theorem splitOversized_within_budget_brokenBytes :
    0 < 2 ∧ 2 < budgetLimit ∧
      (∀ s ∈ spansOfBrokenBytes, 0 ≤ s.start ∧ s.start ≤ s.stop ∧ s.stop ≤ brokenBytes.size) ∧
      splitOversized brokenBytes (.ofContents brokenBytes) 2 spansOfBrokenBytes
        = .ok [⟨0, 1⟩, ⟨1, 3⟩, ⟨3, 5⟩, ⟨5, 7⟩, ⟨5, 7⟩, ⟨4, 4⟩] ∧
      ∃ parts, splitOversized brokenBytes (.ofContents brokenBytes) 2 spansOfBrokenBytes
          = .ok parts.flatten ∧
        List.Forall₂ (Span.CutInto 2) spansOfBrokenBytes parts := by
  have hlimit : 2 < budgetLimit := by decide +kernel
  have hspans : ∀ s ∈ spansOfBrokenBytes,
      0 ≤ s.start ∧ s.start ≤ s.stop ∧ s.stop ≤ brokenBytes.size := by decide
  obtain ⟨_, parts, _, hparts, hcuts⟩ := splitOversized_within_budget (by decide) hlimit hspans
  exact ⟨by decide, hlimit, hspans, by decide +kernel, parts, hparts, hcuts.imp fun _ _ h => h.2⟩

/-! ## Where a cut falls -/

/-- The offsets of line feeds from `low` up to but not including `high`. -/
def Contents.feedsWithin (contents : Contents) (low high : Int) : Set Nat :=
  {i | contents[i]? = some newline ∧ low ≤ i ∧ (i : Int) < high}

/-- Where a piece ends that starts at the given offset and is not the last one of its span: behind
the last line feed in the window before the budget, or, if there is none, at the last boundary
within the budget. -/
inductive CutPlace (contents : Contents) (cs : List Char) (budget window : Nat) (start : Int) :
    Int → Prop
  | behindFeed {i : Nat} :
      IsGreatest (contents.feedsWithin (max (start + 1) (start + budget - window)) (start + budget))
        i →
      CutPlace contents cs budget window start (i + 1)
  | atBoundary {cut : Int} :
      contents.feedsWithin (max (start + 1) (start + budget - window)) (start + budget) = ∅ →
      IsGreatest {b | IsBoundary cs b ∧ b ≤ start + budget} cut →
      CutPlace contents cs budget window start cut

section

variable {contents : Contents} {cs : List Char} {budget window : Nat} {start cut : Int}

/-- Before a target the nearest line feed is the last one. -/
theorem isGreatest_of_nearest {target low : Int} {f : Nat}
    (h : (LineIndex.ofContents contents).Nearest target low target f) :
    IsGreatest (contents.feedsWithin low target) f := by
  have hfeed := LineIndex.mem_feeds_ofContents.mp h.feed
  refine ⟨⟨hfeed, h.low_le, h.lt_high⟩, fun g hg => ?_⟩
  obtain ⟨hgfeed, hglow, hghigh⟩ := hg
  have hnear := h.nearest g (LineIndex.mem_feeds_ofContents.mpr hgfeed) hglow hghigh
  have hhigh := h.lt_high
  omega

/-- The search stops at the last boundary before its start if there is one behind its limit. -/
theorem isGreatest_characterStart (hbytes : contents.toList = encode cs) {floor offset : Int}
    (hfloor : 0 ≤ floor) (hnext : ∃ i, IsBoundary cs i ∧ floor < i ∧ i ≤ offset)
    (h : characterStart contents floor offset = .ok cut) :
    IsGreatest {b | IsBoundary cs b ∧ b ≤ offset} cut := by
  have hat : ∀ {i b}, 0 ≤ i → contents.byteAt? i = some b →
      (IsBoundary cs i ↔ isContinuation b = false) := isBoundary_iff_of_byteAt? hbytes
  fun_induction characterStart contents floor offset with
  | case1 offset hmore hnone => cases h
  | case2 offset hmore b hb hcont ih =>
      have hnot : ¬ IsBoundary cs offset := by
        rw [hat (by omega) hb, hcont]
        exact Bool.noConfusion
      -- the offset itself is no boundary, so nothing is lost by the step back
      have hstep : ∀ i, IsBoundary cs i → i ≤ offset → i ≤ offset - 1 := by
        intro i hi hle
        have hne : i ≠ offset := fun heq => hnot (heq ▸ hi)
        omega
      obtain ⟨i, hi, hlow, hhigh⟩ := hnext
      obtain ⟨⟨hcut, hle⟩, hlast⟩ := ih ⟨i, hi, hlow, hstep i hi hhigh⟩ h
      exact ⟨⟨hcut, by omega⟩, fun j hj => hlast ⟨hj.1, hstep j hj.1 hj.2⟩⟩
  | case3 offset hmore b hb hcont =>
      cases h
      exact ⟨⟨(hat (by omega) hb).mpr (Bool.eq_false_iff.mpr hcont), Int.le_refl _⟩,
        fun j hj => hj.2⟩
  | case4 offset hend =>
      cases h
      obtain ⟨i, hi, hlow, hhigh⟩ := hnext
      have heq : i = cut := by omega
      exact ⟨⟨heq ▸ hi, Int.le_refl _⟩, fun j hj => hj.2⟩

/-- From a boundary a cut comes to its place, if the character there fits into the budget. -/
theorem cutPlace_of_nextCut (hbytes : contents.toList = encode cs) (hstart : IsBoundary cs start)
    (hfit : ∀ c, CharacterAt cs start c → c.utf8Size ≤ budget)
    (hover : start + budget < contents.size)
    (h : nextCut contents (.ofContents contents) budget window start = .ok cut) :
    CutPlace contents cs budget window start cut := by
  have hindex := LineIndex.sound_ofContents contents
  have hsize := size_of_toList hbytes
  simp only [nextCut] at h
  split at h
  · next lineEnd hfound =>
      cases h
      obtain ⟨f, hnearest, rfl⟩ := LineIndex.exists_nearest hindex hfound
      exact .behindFeed (isGreatest_of_nearest hnearest)
  · next hnone =>
      have hempty := LineIndex.not_feed_of_eq_none hindex hnone
      obtain ⟨c, hc, _, hnext⟩ := hstart.exists_char (by omega)
      have hwidth := hfit c hc
      have hpos := c.utf8Size_pos
      refine .atBoundary ?_ (isGreatest_characterStart hbytes hstart.bounds.1
        ⟨_, hnext, by omega, by omega⟩ h)
      refine Set.eq_empty_of_forall_notMem fun f hf => ?_
      obtain ⟨hfeed, hlow, hhigh⟩ := hf
      exact hempty f (LineIndex.mem_feeds_ofContents.mpr hfeed) hlow hhigh

theorem CutPlace.isBoundary (hbytes : contents.toList = encode cs)
    (h : CutPlace contents cs budget window start cut) : IsBoundary cs cut := by
  cases h with
  | @behindFeed i hlast =>
      have hfeed : contents[i]? = some newline := hlast.1.1
      rw [← Array.getElem?_toList, hbytes] at hfeed
      exact isBoundary_of_newline hfeed
  | atBoundary _ hlast => exact hlast.1.1

/-- A cut takes away from the budget less than the window, or no more than three bytes. -/
theorem CutPlace.long (h : CutPlace contents cs budget window start cut) (hstart : 0 ≤ start)
    (hover : start + budget ≤ (encode cs).length) :
    (budget : Int) - max (window - 1) 3 ≤ cut - start := by
  cases h with
  | @behindFeed i hlast =>
      have hlow : max (start + 1) (start + budget - window) ≤ i := hlast.1.2.1
      omega
  | atBoundary _ hlast =>
      obtain ⟨b, hb, hnear, hle⟩ := exists_boundary_near (by omega) hover
      have hcut : b ≤ cut := hlast.2 ⟨hb, hle⟩
      omega

/-- The pieces of a span of a text: each one with another behind it ends at its place, and takes up
the budget up to the window or three bytes, and all of them start and stop at boundaries. -/
structure Span.CutInPlace (contents : Contents) (cs : List Char) (budget window : Nat) (s : Span)
    (pieces : List Span) : Prop where
  cutInto : s.CutInto budget pieces
  places : ∀ p ∈ pieces.dropLast, CutPlace contents cs budget window p.start p.stop
  long : ∀ p ∈ pieces.dropLast, (budget : Int) - max (window - 1) 3 ≤ p.length
  whole : ∀ p ∈ pieces, p.Ends (IsBoundary cs)

theorem CutRun.cutInPlace (hbytes : contents.toList = encode cs) (hbudget : 0 < budget) {s : Span}
    {pieces : List Span} (hends : s.Ends (IsBoundary cs))
    (hfit : ∀ i c, s.Holds i → CharacterAt cs i c → c.utf8Size ≤ budget)
    (h : CutRun contents (.ofContents contents) budget window s.stop s.start pieces) :
    s.CutInPlace contents cs budget window pieces := by
  have hindex := LineIndex.sound_ofContents contents
  have hsize := size_of_toList hbytes
  have hstop := hends.2.bounds.2
  -- a cut is made at a boundary of the span, and so the character there is one of the span
  have hcuts : ∀ i cut, (IsBoundary cs i ∧ (i < s.stop → s.start ≤ i)) → i + budget < s.stop →
      nextCut contents (.ofContents contents) budget window i = .ok cut →
      (IsBoundary cs cut ∧ (cut < s.stop → s.start ≤ cut)) ∧
        CutPlace contents cs budget window i cut ∧
          (budget : Int) - max (window - 1) 3 ≤ cut - i := by
    rintro i cut ⟨hi, hfrom⟩ hover hcut
    have hholds : s.Holds i := ⟨hfrom (by omega), by omega⟩
    have hplace := cutPlace_of_nextCut hbytes hi (fun c => hfit i c hholds) (by omega) hcut
    have hadvance := (nextCut_bounds hindex hbudget hcut).1
    exact ⟨⟨hplace.isBoundary hbytes, fun _ => by omega⟩, hplace,
      hplace.long hi.bounds.1 (by omega)⟩
  obtain ⟨hwhole, hplaces⟩ := h.cuts hcuts ⟨hends.1, fun _ => Int.le_refl _⟩
    ⟨hends.2, fun hlt => absurd hlt (Int.lt_irrefl _)⟩
  exact {
    cutInto := h.cutInto hindex hbudget
    places := fun p hp => (hplaces p hp).1
    long := fun p hp => (hplaces p hp).2
    whole := fun p hp => ⟨(hwhole p hp).1.1, (hwhole p hp).2.1⟩ }

/-- A hard cut that starts from a boundary comes to one if the characters fit into the budget. -/
theorem isBoundary_nextCut (hbytes : contents.toList = encode cs)
    (hfit : ∀ c ∈ cs, c.utf8Size ≤ budget) (hstart : IsBoundary cs start)
    (hover : start + budget < contents.size)
    (h : nextCut contents (.ofContents contents) budget window start = .ok cut) :
    IsBoundary cs cut :=
  (cutPlace_of_nextCut hbytes hstart (fun c hc => hfit c hc.mem) hover h).isBoundary hbytes

end

/-- Spans of a text that start and stop at boundaries are cut in place, in a window of a quarter of
the budget, if the budget is at most `2 ^ 53` and no character of the spans is longer than it. -/
theorem splitOversized_in_place {text : String} {budget : Nat} {spans : List Span}
    (hbudget : 0 < budget) (hexact : budget ≤ Nat.pow 2 53)
    (hends : ∀ s ∈ spans, s.Ends (IsBoundary text.toList))
    (hfit : ∀ s ∈ spans, ∀ i c, s.Holds i → CharacterAt text.toList i c → c.utf8Size ≤ budget) :
    ∃ parts, splitOversized (.ofText text) (.ofContents (.ofText text)) budget spans
        = .ok parts.flatten ∧
      List.Forall₂ (Span.CutInPlace (.ofText text) text.toList budget (max 1 (budget / 4)))
        spans parts := by
  have hbytes : (Contents.ofText text).toList = encode text.toList := toList_ofText text
  have hsize := size_of_toList hbytes
  have hinside : ∀ s ∈ spans, 0 ≤ s.start ∧ s.stop ≤ (Contents.ofText text).size := by
    intro s hs
    have hstart := (hends s hs).1.bounds
    have hstop := (hends s hs).2.bounds
    omega
  obtain ⟨parts, hparts, hruns⟩ := exists_cutRuns (LineIndex.sound_ofContents _) hbudget
    (cutWindow_of_le hexact) hinside
  have hspans : ∀ s ∈ spans, s.Ends (IsBoundary text.toList) ∧
      ∀ i c, s.Holds i → CharacterAt text.toList i c → c.utf8Size ≤ budget :=
    fun s hs => ⟨hends s hs, hfit s hs⟩
  refine ⟨parts, hparts, ((List.forall₂_and_left _ _).mpr ⟨hspans, hruns⟩).imp ?_⟩
  rintro s pieces ⟨⟨hs, hfits⟩, hrun⟩
  exact hrun.cutInPlace hbytes hbudget hs hfits

/-- A text with a line feed in the window of the first piece, and a character of two bytes where the
budget of the second one ends. -/
def accentText : String := "abcdef\nghijklm\u00e9\nxyz"

/-- All of the text. -/
def accentSpan : Span := ⟨0, 20⟩

theorem splitOversized_in_place_accentText :
    0 < 8 ∧ 8 ≤ Nat.pow 2 53 ∧ accentSpan.Ends (IsBoundary accentText.toList) ∧
      (∀ i c, accentSpan.Holds i → CharacterAt accentText.toList i c → c.utf8Size ≤ 8) ∧
      splitOversized (.ofText accentText) (.ofContents (.ofText accentText)) 8 [accentSpan]
        = .ok [⟨0, 7⟩, ⟨7, 14⟩, ⟨14, 20⟩] ∧
      ∃ parts, splitOversized (.ofText accentText) (.ofContents (.ofText accentText)) 8 [accentSpan]
          = .ok parts.flatten ∧
        List.Forall₂ (Span.CutInPlace (.ofText accentText) accentText.toList 8 2) [accentSpan]
          parts := by
  have hexact : 8 ≤ Nat.pow 2 53 := by decide
  have hends : accentSpan.Ends (IsBoundary accentText.toList) :=
    ⟨isBoundary_zero, isBoundary_length⟩
  have hfit : ∀ i c, accentSpan.Holds i → CharacterAt accentText.toList i c → c.utf8Size ≤ 8 :=
    fun _ c _ _ => Nat.le_trans c.utf8Size_le_four (by decide)
  have hcuts := splitOversized_in_place (by decide) hexact (List.forall_mem_singleton.mpr hends)
    (List.forall_mem_singleton.mpr hfit)
  exact ⟨by decide, hexact, hends, hfit, by decide +kernel, hcuts⟩

end SyntaxChunks
