/-
# `Proofs.Points` — offsets and their points, in both directions

A point has as its row the number of line feeds before its offset, and as its column the distance
from where that row begins: behind the last of these line feeds, or at zero if there is none
(`Contents.PointOf`).  Every offset up to the end has such a point, and no other offset has one.
The start of the line with the number of the row is where the row begins, also behind a line feed
at the very end, which opens no line.  So row and column lead back to the offset, and points stand
in the order of their offsets (`points_of_offsets`).
-/
import Mathlib.Data.Prod.Lex
import SyntaxChunks.Proofs.Rows

namespace SyntaxChunks

/-- The place of a point among all points: by its row, and in one row by its column. -/
def Point.place (p : Point) : Nat ×ₗ Nat :=
  toLex (p.row, p.column)

/-! ## The point of an offset -/

/-- The row of an offset begins behind the last line feed before the offset, and at zero if there
is none. -/
inductive Contents.RowStart (contents : Contents) (offset : Nat) : Nat → Prop
  | zero : (∀ i < offset, contents[i]? ≠ some newline) → contents.RowStart offset 0
  | behind {f : Nat} : f < offset → contents[f]? = some newline →
      (∀ i, f < i → i < offset → contents[i]? ≠ some newline) → contents.RowStart offset (f + 1)

/-- The point tells how many line feeds stand before an offset, and how far the offset is from where
its row begins. -/
structure Contents.PointOf (contents : Contents) (offset : Nat) (p : Point) : Prop where
  row : p.row = (contents.toList.take offset).count newline
  column : ∃ start, contents.RowStart offset start ∧ start + p.column = offset

theorem Contents.RowStart.le {contents : Contents} {offset start : Nat}
    (h : contents.RowStart offset start) : start ≤ offset := by
  cases h with
  | zero _ => exact Nat.zero_le offset
  | behind hlt _ _ => exact hlt

namespace LineIndex

variable {contents : Contents}

/-- Where a row begins, the line with its number starts. -/
theorem rowStart_lineStart (contents : Contents) (i : Nat) :
    contents.RowStart i ((ofContents contents).lineStart (contents.rowOf i)) := by
  have hsound := sound_ofContents contents
  cases hrow : contents.rowOf i with
  | zero =>
      rw [Int.natCast_zero, lineStart_zero]
      refine .zero fun k hk hfeed => ?_
      obtain ⟨j, hj⟩ := exists_getElem?_of_feed hfeed
      have hbefore : j < contents.rowOf i := lt_rowOf_iff.mpr ⟨k, hj, hk⟩
      omega
  | succ r =>
      obtain ⟨f, hf, hlt⟩ := lt_rowOf_iff.mp (show r < contents.rowOf i by omega)
      rw [lineStart_of_feed hsound hf]
      refine .behind hlt (feed_of_getElem? hf) fun k hfk hk hfeed => ?_
      -- a line feed between the two would have the number of the row, and stand before the offset
      obtain ⟨j, hj⟩ := exists_getElem?_of_feed hfeed
      have hbefore : j < contents.rowOf i := lt_rowOf_iff.mpr ⟨k, hj, hk⟩
      have hle : k ≤ f := hsound.le_of_le hj hf (by omega)
      omega

theorem lineStart_rowOf_le (contents : Contents) (i : Nat) :
    (ofContents contents).lineStart (contents.rowOf i) ≤ i :=
  (rowStart_lineStart contents i).le

/-- An offset has a point exactly if it is none of those before the contents or behind them. -/
theorem pointAt_eq_error_iff {offset : Int} :
    (ofContents contents).pointAt offset = .error ⟨offset, contents.size⟩ ↔
      offset < 0 ∨ contents.size < offset := by
  constructor
  · intro herror
    by_contra hin
    have hhigh : offset ≤ (ofContents contents).size :=
      Int.not_lt.mp fun hlt => hin (.inr hlt)
    obtain ⟨p, hp⟩ := exists_pointAt (show 0 ≤ offset by omega) hhigh
    rw [herror] at hp
    cases hp
  · intro hout
    exact if_pos hout

theorem pointAt_spec {i : Nat} (hi : i ≤ contents.size) :
    ∃ p, (ofContents contents).pointAt i = .ok p ∧ contents.PointOf i p ∧
      (ofContents contents).lineStart p.row + p.column = i := by
  have hback := Nat.add_sub_of_le (lineStart_rowOf_le contents i)
  exact ⟨_, pointAt_eq hi, ⟨rfl, _, rowStart_lineStart contents i, hback⟩, hback⟩

/-! ## The last row -/

theorem rowOf_size : contents.rowOf contents.size = (ofContents contents).feeds.size := by
  refine Nat.le_antisymm (Nat.le_of_not_lt fun hlt => ?_) (Nat.le_of_not_lt fun hlt => ?_)
  · obtain ⟨f, hf, _⟩ := lt_rowOf_iff.mp hlt
    exact Nat.lt_irrefl _ (Array.getElem?_eq_some_iff.mp hf).1
  · have hf := Array.getElem?_eq_getElem hlt
    exact Nat.lt_irrefl _ (lt_rowOf_iff.mpr ⟨_, hf, (sound_ofContents contents).lt_size hf⟩)

/-- The last line feed is the last byte if that is a line feed. -/
theorem last_feed_iff (hsize : 0 < contents.size) :
    (ofContents contents).feeds[(ofContents contents).feeds.size - 1]? = some (contents.size - 1) ↔
      contents[contents.size - 1]? = some newline := by
  have hsound := sound_ofContents contents
  refine ⟨feed_of_getElem?, fun hlast => ?_⟩
  obtain ⟨j, hj⟩ := exists_getElem?_of_feed hlast
  have hjsize := (Array.getElem?_eq_some_iff.mp hj).1
  have hf := Array.getElem?_eq_getElem
    (show (ofContents contents).feeds.size - 1 < (ofContents contents).feeds.size by omega)
  have hle := hsound.le_of_le hj hf (by omega)
  have hlt : _ < contents.size := hsound.lt_size hf
  rw [hf, Option.some.injEq]
  omega

/-- The only offset whose row is no line is the end of contents without bytes, or behind a line feed
at the very end. -/
theorem rowOf_eq_lineCount_iff {i : Nat} (hi : i ≤ contents.size) :
    contents.rowOf i = (ofContents contents).lineCount ↔
      i = contents.size ∧ (contents.size = 0 ∨ contents[contents.size - 1]? = some newline) := by
  rcases Nat.eq_or_lt_of_le hi with rfl | hlt
  · rcases Nat.eq_zero_or_pos contents.size with hzero | hpos
    · have hcount : (ofContents contents).lineCount = 0 := if_pos hzero
      simp [hcount, hzero, Contents.rowOf]
    · have hcases := lineCount_cases (show 0 < (ofContents contents).size from hpos)
      rw [rowOf_size, ← last_feed_iff hpos]
      rcases hcases with ⟨hlast, hcount⟩ | ⟨hlast, hcount⟩
      · exact ⟨fun _ => ⟨rfl, .inr hlast⟩, fun _ => hcount.symm⟩
      · refine ⟨fun heq => by omega, fun h => ?_⟩
        exact absurd (h.2.resolve_left (by omega)) hlast
  · have hrow := rowOf_lt_lineCount hlt
    refine ⟨fun heq => by omega, fun h => by omega⟩

/-! ## The order of points -/

theorem rowOf_mono (contents : Contents) {i j : Nat} (hij : i ≤ j) :
    contents.rowOf i ≤ contents.rowOf j :=
  (List.take_sublist_take_left hij).count_le newline

/-- Of two offsets the smaller one has the smaller row, or the smaller column of one row. -/
theorem place_lt_place {i j : Nat} {p q : Point} (hij : i < j) (hj : j ≤ contents.size)
    (hp : (ofContents contents).pointAt i = .ok p) (hq : (ofContents contents).pointAt j = .ok q) :
    p.place < q.place := by
  rw [pointAt_eq (by omega)] at hp
  rw [pointAt_eq hj] at hq
  cases hp
  cases hq
  rw [Point.place, Point.place, Prod.Lex.toLex_lt_toLex]
  rcases Nat.eq_or_lt_of_le (rowOf_mono contents (Nat.le_of_lt hij)) with hrow | hrow
  · have hstart := lineStart_rowOf_le contents i
    refine .inr ⟨hrow, ?_⟩
    simp only [← hrow]
    omega
  · exact .inl hrow

theorem exists_offset {offset : Int} {p : Point}
    (hp : (ofContents contents).pointAt offset = .ok p) :
    ∃ i : Nat, i = offset ∧ i ≤ contents.size := by
  have hin : ¬ (offset < 0 ∨ contents.size < offset) := by
    intro hout
    rw [pointAt_eq_error_iff.mpr hout] at hp
    cases hp
  exact ⟨offset.toNat, by omega, by omega⟩

/-- Points stand in the order of their offsets. -/
theorem place_lt_place_iff {i j : Int} {p q : Point}
    (hp : (ofContents contents).pointAt i = .ok p) (hq : (ofContents contents).pointAt j = .ok q) :
    i < j ↔ p.place < q.place := by
  obtain ⟨m, rfl, hm⟩ := exists_offset hp
  obtain ⟨n, rfl, hn⟩ := exists_offset hq
  constructor
  · intro hlt
    exact place_lt_place (Int.ofNat_lt.mp hlt) hn hp hq
  · intro hlt
    rcases Nat.lt_trichotomy m n with hmn | rfl | hnm
    · exact Int.ofNat_lt.mpr hmn
    · rw [hp] at hq
      cases hq
      exact absurd hlt (lt_irrefl _)
    · exact absurd hlt (lt_asymm (place_lt_place hnm hm hq hp))

end LineIndex

/-- Offsets and points of some contents: an offset before them or behind their end is refused, and
each other one has its point, from which the start of the line with the number of the row leads back
to it.  That number is one past the last line only at the end, where no bytes stand before it or the
last one is a line feed.  Of two offsets the smaller one has the smaller point. -/
theorem points_of_offsets (contents : Contents) :
    (∀ offset : Int,
      (LineIndex.ofContents contents).pointAt offset = .error ⟨offset, contents.size⟩ ↔
        offset < 0 ∨ contents.size < offset) ∧
    (∀ i : Nat, i ≤ contents.size →
      ∃ p, (LineIndex.ofContents contents).pointAt i = .ok p ∧ contents.PointOf i p ∧
        (LineIndex.ofContents contents).lineStart p.row + p.column = i ∧
        (p.row = (LineIndex.ofContents contents).lineCount ↔
          i = contents.size ∧
            (contents.size = 0 ∨ contents[contents.size - 1]? = some newline))) ∧
    ∀ (i j : Int) (p q : Point), (LineIndex.ofContents contents).pointAt i = .ok p →
      (LineIndex.ofContents contents).pointAt j = .ok q → (i < j ↔ p.place < q.place) := by
  refine ⟨fun _ => LineIndex.pointAt_eq_error_iff, fun i hi => ?_,
    fun _ _ _ _ => LineIndex.place_lt_place_iff⟩
  obtain ⟨p, hp, hpoint, hback⟩ := LineIndex.pointAt_spec hi
  refine ⟨p, hp, hpoint, hback, ?_⟩
  have hrow : p.row = contents.rowOf i := hpoint.row
  rw [hrow]
  exact LineIndex.rowOf_eq_lineCount_iff hi

end SyntaxChunks
