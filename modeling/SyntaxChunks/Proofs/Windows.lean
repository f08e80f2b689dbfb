/-
# `Proofs.Windows` — windows of lines cover a document

Each window holds at least one line, and starts inside the window before it or
directly behind, so that no line is left out.  With the starts of lines in
order this carries over to bytes.

The windows are known by number: `rowsFrom_getElem?` gives the lines of each,
`rowsFrom_reach` says that the last line is reached by the last of them only,
and `length_rowsFrom` counts them.
-/
import Mathlib.Algebra.Order.Field.Basic
import Mathlib.Data.Rat.Floor
import Mathlib.Tactic.Linarith
import SyntaxChunks.Proofs.Lines
import SyntaxChunks.Proofs.Tiles
import SyntaxChunks.Windows

namespace SyntaxChunks.LineWindow

/-- The windows of the given numbers of lines, or why there are none. -/
def spansOf (lines overlap : Int) (index : LineIndex) : Except WindowError (List Span) :=
  (of? lines overlap).map fun w => w.spans index

/-- The numbers of a window are accepted as those of a window. -/
theorem of?_self (w : LineWindow) : of? w.lines w.overlap = .ok w := by
  have hlt := w.overlap_lt
  have hpos : ¬ (w.lines : Int) ≤ 0 := by omega
  have hrange : 0 ≤ (w.overlap : Int) ∧ (w.overlap : Int) < w.lines := by omega
  simp only [of?, if_neg hpos, dif_pos hrange, Int.toNat_natCast]

theorem spansOf_self (w : LineWindow) (index : LineIndex) :
    spansOf w.lines w.overlap index = .ok (w.spans index) := by
  rw [spansOf, of?_self]
  rfl

theorem step_le (w : LineWindow) : w.step ≤ w.lines :=
  Nat.sub_le _ _

theorem lines_eq (w : LineWindow) : w.lines = w.step + w.overlap := by
  have := w.overlap_lt
  unfold step
  omega

/-! ## Lines -/

theorem rowsFrom_bounds (w : LineWindow) {total first : Nat} :
    ∀ rows ∈ w.rowsFrom total first, first ≤ rows.1 ∧ rows.1 < rows.2 ∧ rows.2 ≤ total := by
  have hlines := w.overlap_lt
  fun_induction rowsFrom w total first with
  | case1 first hlt past hend =>
      intro rows hrows
      rw [List.mem_singleton.mp hrows]
      exact ⟨Nat.le_refl _, by omega, by omega⟩
  | case2 first hlt past hmore ih =>
      intro rows hrows
      rcases List.mem_cons.mp hrows with rfl | hrows
      · exact ⟨Nat.le_refl _, by omega, by omega⟩
      · have := ih rows hrows
        omega
  | case3 => exact fun _ h => absurd h List.not_mem_nil

theorem rowsFrom_ne_nil (w : LineWindow) {total first : Nat} (h : first < total) :
    w.rowsFrom total first ≠ [] := by
  rw [rowsFrom, if_pos h]
  simp only
  split
  · exact List.cons_ne_nil _ _
  · exact List.cons_ne_nil _ _

/-- The lines of the window with a given number. -/
theorem rowsFrom_getElem? (w : LineWindow) {total first : Nat} {rows : Nat × Nat} :
    ∀ k : Nat, (w.rowsFrom total first)[k]? = some rows →
      rows = (first + k * w.step, min (first + k * w.step + w.lines) total) := by
  fun_induction rowsFrom w total first with
  | case1 first hlt past hend =>
      intro k hrows
      cases k with
      | zero =>
          rw [Nat.zero_mul, Nat.add_zero]
          exact (Option.some.inj hrows).symm
      | succ k => cases hrows
  | case2 first hlt past hmore ih =>
      intro k hrows
      cases k with
      | zero =>
          rw [Nat.zero_mul, Nat.add_zero]
          exact (Option.some.inj hrows).symm
      | succ k =>
          have hnext := ih k hrows
          rw [Nat.succ_mul, Nat.add_comm (k * w.step), ← Nat.add_assoc]
          exact hnext
  | case3 =>
      intro k hrows
      cases hrows

/-- A window reaches the last line exactly if it is the last window. -/
theorem rowsFrom_reach (w : LineWindow) {total first : Nat} :
    ∀ k : Nat, k < (w.rowsFrom total first).length →
      (total ≤ first + k * w.step + w.lines ↔ k + 1 = (w.rowsFrom total first).length) := by
  fun_induction rowsFrom w total first with
  | case1 first hlt past hend =>
      intro k hk
      have hzero : k = 0 := by simpa using hk
      subst hzero
      rw [Nat.zero_mul, Nat.add_zero]
      show total ≤ first + w.lines ↔ 0 + 1 = 1
      omega
  | case2 first hlt past hmore ih =>
      intro k hk
      cases k with
      | zero =>
          -- the next window starts before the last line
          have hstep := w.step_le
          have hnext := List.length_pos_iff.mpr
            (w.rowsFrom_ne_nil (show first + w.step < total by omega))
          rw [Nat.zero_mul, Nat.add_zero, List.length_cons]
          omega
      | succ k =>
          have hreach := ih k (Nat.lt_of_succ_lt_succ hk)
          rw [Nat.succ_mul, List.length_cons, Nat.add_comm (k * w.step), ← Nat.add_assoc]
          omega
  | case3 =>
      intro k hk
      exact absurd hk (Nat.not_lt_zero k)

/-- As many windows are needed as steps make up the lines behind the overlap, and at least one. -/
theorem length_rowsFrom (w : LineWindow) {total : Nat} (htotal : 0 < total) :
    ((w.rowsFrom total 0).length : Int) = max 1 ⌈((total : ℚ) - w.overlap) / w.step⌉ := by
  have hne := List.length_pos_iff.mpr (w.rowsFrom_ne_nil htotal)
  have hstep : (0 : ℚ) < w.step := by exact_mod_cast w.step_pos
  have hlines := w.lines_eq
  obtain ⟨n, hn⟩ : ∃ n, (w.rowsFrom total 0).length = n + 1 := ⟨_, (Nat.sub_add_cancel hne).symm⟩
  have hlast : total ≤ 0 + n * w.step + w.lines := (w.rowsFrom_reach n (by omega)).mpr hn.symm
  have hupper : (total : ℚ) ≤ n * w.step + (w.step + w.overlap) := by
    rw [Nat.zero_add, hlines] at hlast
    exact_mod_cast hlast
  rw [hn]
  cases n with
  | zero =>
      have hceil : ⌈((total : ℚ) - w.overlap) / w.step⌉ ≤ 1 := by
        rw [Int.ceil_le, Int.cast_one, div_le_one hstep]
        push_cast at hupper
        linarith
      omega
  | succ m =>
      have hbefore : ¬ total ≤ 0 + m * w.step + w.lines := by
        rw [w.rowsFrom_reach m (by omega), hn]
        omega
      have hlower : (m : ℚ) * w.step + (w.step + w.overlap) < total := by
        rw [Nat.zero_add, hlines, Nat.not_le] at hbefore
        exact_mod_cast hbefore
      have hceil : ⌈((total : ℚ) - w.overlap) / w.step⌉ = ((m + 1 + 1 : Nat) : Int) := by
        rw [Int.ceil_eq_iff, lt_div_iff₀ hstep, div_le_iff₀ hstep]
        push_cast at hupper ⊢
        constructor
        · linarith
        · linarith
      rw [hceil]
      omega

/-- The windows from a line on leave out no byte behind its start. -/
theorem rowsFrom_cover (w : LineWindow) {index : LineIndex} (h : index.Sound) {i : Nat}
    (hi : i < index.size) {first : Nat} (hfirst : first < index.lineCount)
    (hstart : index.lineStart first ≤ i) :
    ∃ rows ∈ w.rowsFrom index.lineCount first,
      index.lineStart rows.1 ≤ i ∧ i < index.lineStart rows.2 := by
  have hstep := w.step_le
  fun_induction rowsFrom w index.lineCount first with
  | case1 first hlt past hend =>
      have hpast : past = index.lineCount := by omega
      refine ⟨(first, past), List.mem_singleton_self _, hstart, ?_⟩
      rw [hpast, LineIndex.lineStart_lineCount]
      exact hi
  | case2 first hlt past hmore ih =>
      by_cases hin : i < index.lineStart past
      · exact ⟨(first, past), List.mem_cons_self, hstart, hin⟩
      · -- the next window starts at `past` or before it
        have hnext := LineIndex.lineStart_le h (show first + w.step ≤ past by omega) (by omega)
        obtain ⟨rows, hrows, hin⟩ := ih (by omega) (by omega)
        exact ⟨rows, List.mem_cons_of_mem _ hrows, hin⟩
  | case3 first hge => omega

/-! ## Bytes -/

/-- No window is empty, and none leaves the contents. -/
theorem spans_bounds (w : LineWindow) {index : LineIndex} (h : index.Sound) :
    ∀ s ∈ w.spans index, 0 ≤ s.start ∧ s.start < s.stop ∧ s.stop ≤ index.size := by
  intro s hs
  obtain ⟨rows, hrows, rfl⟩ := List.mem_map.mp hs
  obtain ⟨_, hlt, hle⟩ := w.rowsFrom_bounds rows hrows
  have hstart := LineIndex.lineStart_lt h hlt hle
  have hstop := LineIndex.lineStart_le_size h hle
  simp only
  omega

/-- Every byte lies in a window. -/
theorem spans_cover (w : LineWindow) {index : LineIndex} (h : index.Sound) {i : Nat}
    (hi : i < index.size) : ∃ s ∈ w.spans index, s.Holds i := by
  have hcount := LineIndex.lineCount_pos (show 0 < index.size by omega)
  have hstart : index.lineStart (0 : Nat) ≤ i := by
    rw [Int.natCast_zero, LineIndex.lineStart_zero]
    exact Nat.zero_le _
  obtain ⟨rows, hrows, hlow, hhigh⟩ := w.rowsFrom_cover h hi hcount hstart
  refine ⟨_, List.mem_map_of_mem hrows, ?_, ?_⟩
  · exact Int.ofNat_le.mpr hlow
  · exact Int.ofNat_lt.mpr hhigh

end SyntaxChunks.LineWindow
