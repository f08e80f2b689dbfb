/-
# `Proofs.Rows` — the row of an offset

The row of an offset is the number of line feeds before it.  Bisection finds
that number (`firstFrom_eq_rowOf`), and an offset lies in a line or behind it
exactly if its row is that of the line or a later one (`lineStart_le_iff`).
Both directions between offsets and points follow: `pointAt_eq` gives row and
column of an offset, `pointAt_lineStart` those of the start of a line.
-/
import SyntaxChunks.Proofs.Lines

namespace SyntaxChunks

/-- The number of line feeds before an offset. -/
def Contents.rowOf (contents : Contents) (offset : Nat) : Nat :=
  (contents.toList.take offset).count newline

namespace LineIndex

/-! ## Line feeds before an offset -/

theorem lt_count_take_iff :
    ∀ {bytes : List UInt8} {offset i j : Nat},
      j < (bytes.take i).count newline ↔
        ∃ f, (feedsFrom offset bytes)[j]? = some f ∧ f < offset + i
  | [], offset, i, j => by simp [feedsFrom]
  | b :: bytes, offset, 0, j => by
      simp only [List.take_zero, List.count_nil, Nat.not_lt_zero, false_iff]
      rintro ⟨f, hf, hlt⟩
      obtain ⟨k, _, rfl⟩ := mem_feedsFrom.mp (List.mem_of_getElem? hf)
      omega
  | b :: bytes, offset, i + 1, j => by
      have hshift : offset + 1 + i = offset + (i + 1) := by omega
      have hrest : ∀ {j}, j < (bytes.take i).count newline ↔
          ∃ f, (feedsFrom (offset + 1) bytes)[j]? = some f ∧ f < offset + (i + 1) := by
        intro j
        rw [← hshift]
        exact lt_count_take_iff
      rw [List.take_succ_cons, feedsFrom]
      by_cases hb : b = newline
      · subst hb
        rw [List.count_cons_self, if_pos rfl]
        cases j with
        | zero =>
            refine ⟨fun _ => ⟨offset, rfl, by omega⟩, fun _ => Nat.succ_pos _⟩
        | succ j =>
            rw [Nat.add_lt_add_iff_right, hrest]
            simp only [List.getElem?_cons_succ]
      · rw [List.count_cons_of_ne hb, if_neg hb]
        exact hrest

variable {contents : Contents}

theorem lt_rowOf_iff {i j : Nat} :
    j < contents.rowOf i ↔ ∃ f, (ofContents contents).feeds[j]? = some f ∧ f < i := by
  have h := @lt_count_take_iff contents.toList 0 i j
  rw [Nat.zero_add] at h
  simpa [Contents.rowOf, ofContents] using h

/-- Bisection counts the line feeds before an offset. -/
theorem firstFrom_eq_rowOf (i : Nat) :
    (ofContents contents).firstFrom i 0 (ofContents contents).feeds.size = contents.rowOf i := by
  obtain ⟨_, hupto, hbelow, habove⟩ :=
    firstFrom_spec (sound_ofContents contents) i (Nat.zero_le _) (Nat.le_refl _)
  refine Nat.le_antisymm (Nat.le_of_not_lt fun hlt => ?_) (Nat.le_of_not_lt fun hlt => ?_)
  · -- the line feed with the number of the row comes before the offset
    have hf := Array.getElem?_eq_getElem (Nat.lt_of_lt_of_le hlt hupto)
    have hbefore := hbelow _ _ (Nat.zero_le _) hlt hf
    exact Nat.lt_irrefl _ (lt_rowOf_iff.mpr ⟨_, hf, Int.ofNat_lt.mp hbefore⟩)
  · obtain ⟨f, hf, hbefore⟩ := lt_rowOf_iff.mp hlt
    have hbehind := habove _ f (Nat.le_refl _) (Array.getElem?_eq_some_iff.mp hf).1 hf
    omega

/-! ## Rows and lines -/

theorem rowOf_lt_lineCount {i : Nat} (hi : i < contents.size) :
    contents.rowOf i < (ofContents contents).lineCount := by
  refine Nat.lt_of_not_le fun hle => ?_
  have hsize : 0 < (ofContents contents).size := Nat.zero_lt_of_lt hi
  rcases lineCount_cases hsize with ⟨hlast, hcount⟩ | ⟨_, hcount⟩
  · have hpos := (Array.getElem?_eq_some_iff.mp hlast).1
    obtain ⟨f, hf, hlt⟩ := lt_rowOf_iff.mp
      (show (ofContents contents).feeds.size - 1 < contents.rowOf i by omega)
    rw [hlast] at hf
    cases hf
    have hbound : i < (ofContents contents).size := hi
    omega
  · obtain ⟨f, hf, _⟩ :=
      lt_rowOf_iff.mp (show (ofContents contents).feeds.size < contents.rowOf i by omega)
    exact Nat.lt_irrefl _ (Array.getElem?_eq_some_iff.mp hf).1

/-- An offset lies in a line or behind it exactly if its row does. -/
theorem lineStart_le_iff {i k : Nat} (hi : i < contents.size)
    (hk : k ≤ (ofContents contents).lineCount) :
    (ofContents contents).lineStart k ≤ i ↔ k ≤ contents.rowOf i := by
  rcases Nat.eq_or_lt_of_le hk with rfl | hlt
  · have hrow := rowOf_lt_lineCount hi
    rw [lineStart_lineCount]
    exact ⟨fun h => absurd h (Nat.not_le.mpr hi), fun h => absurd h (Nat.not_le.mpr hrow)⟩
  · cases k with
    | zero =>
        rw [Int.natCast_zero, lineStart_zero]
        exact ⟨fun _ => Nat.zero_le _, fun _ => Nat.zero_le _⟩
    | succ j =>
        obtain ⟨f, hf, hstart, _⟩ :=
          exists_lineStart_eq (sound_ofContents contents) (show 0 < j + 1 by omega) hlt
        rw [Nat.add_sub_cancel] at hf
        rw [hstart, Nat.succ_le_iff, Nat.succ_le_iff, lt_rowOf_iff]
        constructor
        · intro h
          exact ⟨f, hf, h⟩
        · rintro ⟨g, hg, h⟩
          rw [hf] at hg
          cases hg
          exact h

theorem lineStart_lt_size {k : Nat} (hk : k < (ofContents contents).lineCount) :
    (ofContents contents).lineStart k < contents.size := by
  have h := lineStart_lt (sound_ofContents contents) hk (Nat.le_refl _)
  rwa [lineStart_lineCount] at h

/-- The row of the start of a line is the number of the line. -/
theorem rowOf_lineStart {k : Nat} (hk : k < (ofContents contents).lineCount) :
    contents.rowOf ((ofContents contents).lineStart k) = k := by
  have hin := lineStart_lt_size hk
  have hnext := lineStart_lt (sound_ofContents contents) (Nat.lt_succ_self k) hk
  have hge := (lineStart_le_iff hin (Nat.le_of_lt hk)).mp (Nat.le_refl _)
  have hle : ¬ k + 1 ≤ contents.rowOf ((ofContents contents).lineStart k) := by
    rw [← lineStart_le_iff hin hk]
    exact Nat.not_le.mpr hnext
  omega

/-- The lines are the rows of the bytes. -/
theorem lt_lineCount_iff {r : Nat} :
    r < (ofContents contents).lineCount ↔ ∃ i, i < contents.size ∧ contents.rowOf i = r := by
  constructor
  · intro h
    exact ⟨_, lineStart_lt_size h, rowOf_lineStart h⟩
  · rintro ⟨i, hi, rfl⟩
    exact rowOf_lt_lineCount hi

/-- A line that is not the last one ends with a line feed, and has no other. -/
theorem exists_feed_of_line {i : Nat} (hi : i + 1 < (ofContents contents).lineCount) :
    ∃ f, (ofContents contents).lineStart (i + 1 : Nat) = f + 1 ∧
      (ofContents contents).lineStart i ≤ f ∧ contents[f]? = some newline ∧
      ∀ p, (ofContents contents).lineStart i ≤ p → p < f → contents[p]? ≠ some newline := by
  have hsound := sound_ofContents contents
  obtain ⟨f, hf, hstart, _⟩ := exists_lineStart_eq hsound (show 0 < i + 1 by omega) hi
  rw [Nat.add_sub_cancel] at hf
  have hlt := lineStart_lt hsound (show i < i + 1 by omega) (Nat.le_of_lt hi)
  refine ⟨f, hstart, by omega, feed_of_getElem? hf, fun p hp hpf hnew => ?_⟩
  -- behind any feed before `f` a line starts, no later than line `i`
  obtain ⟨j, hj⟩ := exists_getElem?_of_feed hnew
  have hji : j < i := Nat.lt_of_not_le fun hij => by
    have := hsound.le_of_le hf hj hij
    omega
  have hline := lineStart_le hsound (show j + 1 ≤ i by omega) (by omega)
  rw [lineStart_of_feed hsound hj] at hline
  omega

/-! ## Points -/

/-- The point of an offset: its row, and how far it is from where that starts. -/
theorem pointAt_eq {i : Nat} (hi : i ≤ contents.size) :
    (ofContents contents).pointAt i =
      .ok ⟨contents.rowOf i, i - (ofContents contents).lineStart (contents.rowOf i)⟩ := by
  have hin : ¬ ((i : Int) < 0 ∨ ((ofContents contents).size : Int) < i) := by
    have hsize : (ofContents contents).size = contents.size := rfl
    omega
  simp only [pointAt, if_neg hin, firstFrom_eq_rowOf]
  split
  · next hzero =>
      rw [hzero, Int.natCast_zero, lineStart_zero]
      rfl
  · next hpos =>
      obtain ⟨f, hf, hlt⟩ := lt_rowOf_iff.mp (show contents.rowOf i - 1 < contents.rowOf i by omega)
      have hstart := lineStart_of_feed (sound_ofContents contents) hf
      rw [Nat.sub_add_cancel (Nat.pos_of_ne_zero hpos)] at hstart
      have hcolumn : ((i : Int) - f - 1).toNat = i - (f + 1) := by omega
      rw [hf, hstart, Option.getD_some, hcolumn]

theorem pointAt_lineStart {k : Nat} (hk : k < (ofContents contents).lineCount) :
    (ofContents contents).pointAt ((ofContents contents).lineStart k) = .ok ⟨k, 0⟩ := by
  rw [pointAt_eq (Nat.le_of_lt (lineStart_lt_size hk)), rowOf_lineStart hk, Nat.sub_self]

end LineIndex

end SyntaxChunks
