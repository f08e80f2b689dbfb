/-
# `Proofs.LinePartition` — the lines of some contents, one behind the other

A line feed at the very end opens no line, so there are as many lines as line feeds, or one more.
The start of a line is read behind the line feed before it.  `LineIndex.checkedLineStart` reads it
with its fault spelled out, a line feed that is not there, and never has one
(`LineIndex.checkedLineStart_eq`).

Behind each line feed a line starts, or the contents end.  So a line has no line feed but its last
byte, and every byte lies in the line with the number of its row and in no other
(`lines_partition`).
-/
import Mathlib.Logic.ExistsUnique
import SyntaxChunks.Proofs.NearestFeed
import SyntaxChunks.Proofs.Rows

namespace SyntaxChunks

/-- The bytes from `start` up to `stop` are at least one, and only the last of them may be a line
feed. -/
structure Contents.IsLine (contents : Contents) (start stop : Nat) : Prop where
  nonempty : start < stop
  inside : stop ≤ contents.size
  feed_last : ∀ i, start ≤ i → i < stop → contents[i]? = some newline → i + 1 = stop

namespace LineIndex

/-! ## Any line number -/

/-- The offset where a line starts, unless there is no line feed to read it from. -/
def checkedLineStart (index : LineIndex) (line : Int) : Except SearchFault Nat :=
  if line ≤ 0 then .ok 0
  else if index.lineCount ≤ line then .ok index.size
  else (index.feedAt (line - 1).toNat).map (· + 1)

section

variable {index : LineIndex} {line : Int}

theorem lineStart_of_le_zero (h : line ≤ 0) : index.lineStart line = 0 :=
  if_pos h

theorem lineCount_eq_zero_iff : index.lineCount = 0 ↔ index.size = 0 := by
  refine ⟨fun hcount => Nat.eq_zero_of_not_pos fun hsize => ?_, fun hsize => if_pos hsize⟩
  exact absurd hcount (Nat.ne_of_gt (lineCount_pos hsize))

theorem lineStart_of_lineCount_le (h : index.lineCount ≤ line) :
    index.lineStart line = index.size := by
  by_cases hzero : line ≤ 0
  · have hnone : index.lineCount = 0 := by omega
    rw [lineStart_of_le_zero hzero, lineCount_eq_zero_iff.mp hnone]
  · rw [lineStart, if_neg hzero, if_pos h]

/-- The line feed that a start is read from is always there. -/
theorem checkedLineStart_eq (h : index.Sound) (line : Int) :
    index.checkedLineStart line = .ok (index.lineStart line) := by
  unfold checkedLineStart
  split
  · next hzero => rw [lineStart_of_le_zero hzero]
  · next hpos =>
      split
      · next hpast => rw [lineStart_of_lineCount_le hpast]
      · next hlt =>
          obtain ⟨k, rfl⟩ : ∃ k : Nat, line = k := ⟨line.toNat, by omega⟩
          obtain ⟨f, hf, hstart, _⟩ :=
            exists_lineStart_eq h (show 0 < k by omega) (show k < index.lineCount by omega)
          have hnumber : ((k : Int) - 1).toNat = k - 1 := by omega
          rw [hnumber, feedAt_eq_ok hf, hstart]
          rfl

end

/-! ## Line by line -/

section

variable {contents : Contents}

/-- A line feed in a line is its last byte, since behind it the next line starts. -/
theorem isLine {k : Nat} (hk : k < (ofContents contents).lineCount) :
    contents.IsLine ((ofContents contents).lineStart k)
      ((ofContents contents).lineStart (k + 1 : Nat)) := by
  have hsound := sound_ofContents contents
  refine ⟨lineStart_lt hsound (Nat.lt_succ_self k) hk, lineStart_le_size hsound hk, ?_⟩
  intro i hstart hstop hfeed
  obtain ⟨j, hj⟩ := exists_getElem?_of_feed hfeed
  have hnext := lineStart_of_feed hsound hj
  have hcount : j + 1 ≤ (ofContents contents).lineCount := by
    have hin := (Array.getElem?_eq_some_iff.mp hj).1
    have hcases := lineCount_cases (Nat.zero_lt_of_lt (hsound.lt_size hj))
    omega
  rcases Nat.lt_or_ge k (j + 1) with hbehind | hbefore
  · have hle := lineStart_le hsound (show k + 1 ≤ j + 1 from hbehind) hcount
    omega
  · have hle := lineStart_le hsound hbefore (Nat.le_of_lt hk)
    omega

theorem feed_of_line {k : Nat} (hk : k + 1 < (ofContents contents).lineCount) :
    contents[(ofContents contents).lineStart (k + 1 : Nat) - 1]? = some newline := by
  obtain ⟨f, hstart, _, hfeed, _⟩ := exists_feed_of_line hk
  rw [hstart, Nat.add_sub_cancel]
  exact hfeed

/-- A byte lies in the line with the number of its row, and in no other. -/
theorem existsUnique_line {i : Nat} (hi : i < contents.size) :
    ∃! k : Nat, k < (ofContents contents).lineCount ∧ (ofContents contents).lineStart k ≤ i ∧
      i < (ofContents contents).lineStart (k + 1 : Nat) := by
  have hrow := rowOf_lt_lineCount hi
  refine ⟨contents.rowOf i, ⟨hrow, ?_, ?_⟩, ?_⟩
  · exact (lineStart_le_iff hi (Nat.le_of_lt hrow)).mpr (Nat.le_refl _)
  · refine Nat.lt_of_not_le fun hle => ?_
    exact absurd ((lineStart_le_iff hi hrow).mp hle) (Nat.not_succ_le_self _)
  · rintro k ⟨hk, hstart, hstop⟩
    have hle := (lineStart_le_iff hi (Nat.le_of_lt hk)).mp hstart
    have hge := mt (lineStart_le_iff hi hk).mpr (Nat.not_le.mpr hstop)
    omega

end

end LineIndex

/-- The lines of some contents.  Every number has a start, which is read without a fault: zero for
the first line and all numbers before it, and the end for those behind the last.  Contents with
bytes have lines, whose starts ascend from zero to the end.  A line has at least one byte and no
line feed but its last byte, which is one unless it is the last line.  Every byte lies in exactly
one line. -/
theorem lines_partition (contents : Contents) :
    (∀ line : Int, (LineIndex.ofContents contents).checkedLineStart line
      = .ok ((LineIndex.ofContents contents).lineStart line)) ∧
    (∀ line : Int, line ≤ 0 → (LineIndex.ofContents contents).lineStart line = 0) ∧
    (∀ line : Int, (LineIndex.ofContents contents).lineCount ≤ line →
      (LineIndex.ofContents contents).lineStart line = contents.size) ∧
    ((LineIndex.ofContents contents).lineCount = 0 ↔ contents.size = 0) ∧
    (∀ j k : Nat, j < k → k ≤ (LineIndex.ofContents contents).lineCount →
      (LineIndex.ofContents contents).lineStart j < (LineIndex.ofContents contents).lineStart k) ∧
    (∀ k : Nat, k < (LineIndex.ofContents contents).lineCount →
      contents.IsLine ((LineIndex.ofContents contents).lineStart k)
        ((LineIndex.ofContents contents).lineStart (k + 1 : Nat))) ∧
    (∀ k : Nat, k + 1 < (LineIndex.ofContents contents).lineCount →
      contents[(LineIndex.ofContents contents).lineStart (k + 1 : Nat) - 1]? = some newline) ∧
    ∀ i : Nat, i < contents.size →
      ∃! k : Nat, k < (LineIndex.ofContents contents).lineCount ∧
        (LineIndex.ofContents contents).lineStart k ≤ i ∧
        i < (LineIndex.ofContents contents).lineStart (k + 1 : Nat) := by
  have hsound := LineIndex.sound_ofContents contents
  exact ⟨LineIndex.checkedLineStart_eq hsound, fun _ => LineIndex.lineStart_of_le_zero,
    fun _ => LineIndex.lineStart_of_lineCount_le, LineIndex.lineCount_eq_zero_iff,
    fun _ _ => LineIndex.lineStart_lt hsound, fun _ => LineIndex.isLine,
    fun _ => LineIndex.feed_of_line, fun _ => LineIndex.existsUnique_line⟩

end SyntaxChunks
