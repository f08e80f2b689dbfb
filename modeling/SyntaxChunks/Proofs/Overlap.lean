/-
# `Proofs.Overlap` — what each window of lines holds, and what two of them share

A window has a number, and with it the lines that it holds (`LineWindow.rows`).
`LineWindow.CutsInto` says what cutting some contents into windows means: how
many windows there are, the bytes of which lines each holds, that no line is
left out, that only the last window has the last line, how many lines two
windows in a row share, and that nothing but these is there twice.
`windows_of_lines` shows all of it for the windows of any contents, and in the
points of the chunks made of them.
-/
import Mathlib.Order.Interval.Finset.Nat
import SyntaxChunks.Proofs.Chunking
import SyntaxChunks.Proofs.Rows

namespace SyntaxChunks

/-! ## Bytes that were not seen before -/

/-- The bytes of spans one after the other, of each span those behind the end
of the span before it. -/
def freshBytes (contents : Contents) : Int → List Span → List UInt8
  | _, [] => []
  | seen, s :: rest =>
    (contents.slice s.start s.stop).toList.drop (seen - s.start).toNat
      ++ freshBytes contents s.stop rest

/-- Each span starts where the one before ends or earlier, and does not end before it. -/
inductive Lapped : Int → Int → List Span → Prop
  | nil {a : Int} : Lapped a a []
  | cons {a b : Int} {s : Span} {rest : List Span} : 0 ≤ s.start → s.start ≤ a → a ≤ s.stop →
      Lapped s.stop b rest → Lapped a b (s :: rest)

theorem Lapped.le {a b : Int} {spans : List Span} (h : Lapped a b spans) : a ≤ b := by
  induction h with
  | nil => exact Int.le_refl _
  | cons _ _ hle _ ih => exact Int.le_trans hle ih

/-- What is left of a slice without what lies before an offset inside it. -/
theorem drop_slice {contents : Contents} {s a b : Int} (hs : 0 ≤ s) (hsa : s ≤ a) (hab : a ≤ b)
    (hb : b ≤ contents.size) :
    (contents.slice s b).toList.drop (a - s).toNat = (contents.slice a b).toList := by
  have hstart : s.toNat + (a - s).toNat = a.toNat := by omega
  have hlength : b.toNat - s.toNat - (a - s).toNat = b.toNat - a.toNat := by omega
  rw [toList_slice hs (Int.le_trans hsa hab) hb, toList_slice (Int.le_trans hs hsa) hab hb,
    List.drop_take, List.drop_drop, hstart, hlength]

/-- Lapped spans hold every byte, and hold those that are fresh once. -/
theorem Lapped.freshBytes_eq {contents : Contents} {a b : Int} {spans : List Span}
    (h : Lapped a b spans) (ha : 0 ≤ a) (hb : b ≤ contents.size) :
    freshBytes contents a spans = (contents.slice a b).toList := by
  induction h with
  | nil => simp [freshBytes, Contents.slice]
  | cons hstart hsa hle hrest ih =>
      have hstop := hrest.le
      rw [freshBytes, drop_slice hstart hsa hle (Int.le_trans hstop hb), ih (by omega) hb]
      exact slice_append_slice ha hle hstop hb

namespace LineWindow

/-! ## The windows by number -/

/-- The lines of the window with a given number. -/
def rows (w : LineWindow) (total k : Nat) : Finset Nat :=
  Finset.Ico (k * w.step) (min (k * w.step + w.lines) total)

variable {w : LineWindow} {total k : Nat}

theorem mem_rows {r : Nat} :
    r ∈ w.rows total k ↔ k * w.step ≤ r ∧ r < k * w.step + w.lines ∧ r < total := by
  rw [rows, Finset.mem_Ico, lt_min_iff]

/-- A window that does not reach the last line shares its lines from the next step on. -/
theorem card_rows_inter (h : k * w.step + w.lines < total) :
    (w.rows total k ∩ w.rows total (k + 1)).card = w.overlap := by
  have hlines := w.lines_eq
  have hsucc : (k + 1) * w.step = k * w.step + w.step := Nat.succ_mul k w.step
  rw [rows, rows, Finset.Ico_inter_Ico, Nat.card_Ico, hsucc]
  omega

/-- The spans are the windows of the contents: their number, the lines of each,
and what they have in common. -/
structure CutsInto (w : LineWindow) (contents : Contents) (total : Nat) (spans : List Span) :
    Prop where
  /-- The lines are the rows of the bytes. -/
  lines : ∀ r, r < total ↔ ∃ i, i < contents.size ∧ contents.rowOf i = r
  count : (spans.length : Int) = max 1 ⌈((total : ℚ) - w.overlap) / w.step⌉
  inside : ∀ s ∈ spans, 0 ≤ s.start ∧ s.start < s.stop ∧ s.stop ≤ contents.size
  /-- A window starts and stops with its first and its last line. -/
  ends : ∀ (k : Nat) (s : Span), spans[k]? = some s →
    s.start = (LineIndex.ofContents contents).lineStart (k * w.step : Nat) ∧
      s.stop = (LineIndex.ofContents contents).lineStart (min (k * w.step + w.lines) total : Nat)
  /-- A window holds the bytes of its lines and no other. -/
  holds : ∀ (k : Nat) (s : Span), spans[k]? = some s → ∀ i : Nat, i < contents.size →
    (s.Holds i ↔ contents.rowOf i ∈ w.rows total k)
  cover : ∀ r < total, ∃ k < spans.length, r ∈ w.rows total k
  last : ∀ k < spans.length, total - 1 ∈ w.rows total k ↔ k + 1 = spans.length
  shared : ∀ k, k + 1 < spans.length →
    (w.rows total k ∩ w.rows total (k + 1)).card = w.overlap
  fresh : freshBytes contents 0 spans = contents.toList

/-! ## The windows of some contents -/

section

variable {contents : Contents}

theorem length_spans (w : LineWindow) (index : LineIndex) :
    (w.spans index).length = (w.rowsFrom index.lineCount 0).length :=
  List.length_map _

theorem spans_getElem? (w : LineWindow) {index : LineIndex} {s : Span}
    (h : (w.spans index)[k]? = some s) :
    s.start = index.lineStart (k * w.step : Nat) ∧
      s.stop = index.lineStart (min (k * w.step + w.lines) index.lineCount : Nat) := by
  rw [spans, List.getElem?_map, Option.map_eq_some_iff] at h
  obtain ⟨rows, hrows, rfl⟩ := h
  rw [w.rowsFrom_getElem? k hrows, Nat.zero_add]
  exact ⟨rfl, rfl⟩

/-- A window starts before the last line. -/
theorem step_lt_of_lt_length {index : LineIndex} (h : k < (w.spans index).length) :
    k * w.step < index.lineCount := by
  rw [w.length_spans] at h
  have hrows := List.getElem?_eq_getElem h
  have hbounds := w.rowsFrom_bounds _ (List.mem_of_getElem? hrows)
  rw [w.rowsFrom_getElem? k hrows] at hbounds
  simp only at hbounds
  omega

theorem reach_iff {index : LineIndex} (h : k < (w.spans index).length) :
    index.lineCount ≤ k * w.step + w.lines ↔ k + 1 = (w.spans index).length := by
  rw [w.length_spans] at h ⊢
  have hreach := w.rowsFrom_reach k h
  rwa [Nat.zero_add] at hreach

theorem spans_holds {s : Span} (h : (w.spans (.ofContents contents))[k]? = some s) {i : Nat}
    (hi : i < contents.size) :
    s.Holds i ↔ contents.rowOf i ∈ w.rows (LineIndex.ofContents contents).lineCount k := by
  obtain ⟨hstart, hstop⟩ := w.spans_getElem? h
  have hfirst := step_lt_of_lt_length (List.getElem?_eq_some_iff.mp h).1
  have hlow := LineIndex.lineStart_le_iff hi (Nat.le_of_lt hfirst)
  have hhigh := LineIndex.lineStart_le_iff hi
    (Nat.min_le_right (k * w.step + w.lines) (LineIndex.ofContents contents).lineCount)
  rw [Span.Holds, hstart, hstop, Int.ofNat_le, Int.ofNat_lt, hlow, ← Nat.not_le, hhigh, Nat.not_le,
    rows, Finset.mem_Ico]

/-- From any line inside the first window on, the windows are lapped to the end. -/
theorem rowsFrom_lapped (w : LineWindow) {index : LineIndex} (h : index.Sound) {first : Nat}
    (hfirst : first < index.lineCount) :
    ∀ seen : Nat, first ≤ seen → seen ≤ min (first + w.lines) index.lineCount →
      Lapped (index.lineStart seen) index.size
        ((w.rowsFrom index.lineCount first).map fun rows =>
          ⟨index.lineStart rows.1, index.lineStart rows.2⟩) := by
  have hstep := w.step_le
  have hlines := w.lines_eq
  have hlap : ∀ {first seen past : Nat} {rest : List Span}, first ≤ seen → seen ≤ past →
      past ≤ index.lineCount → Lapped (index.lineStart past) index.size rest →
      Lapped (index.lineStart seen) index.size
        (⟨index.lineStart first, index.lineStart past⟩ :: rest) := by
    intro first seen past rest hlow hhigh hpast hrest
    refine .cons (Int.natCast_nonneg _) ?_ ?_ hrest
    · exact Int.ofNat_le.mpr (LineIndex.lineStart_le h hlow (Nat.le_trans hhigh hpast))
    · exact Int.ofNat_le.mpr (LineIndex.lineStart_le h hhigh hpast)
  fun_induction rowsFrom w index.lineCount first with
  | case1 first hlt past hend =>
      intro seen hlow hhigh
      have hpast : past = index.lineCount := by omega
      refine hlap hlow hhigh (Nat.min_le_right _ _) ?_
      rw [hpast, LineIndex.lineStart_lineCount]
      exact .nil
  | case2 first hlt past hmore ih =>
      intro seen hlow hhigh
      -- the next window starts before this one ends, and ends behind it
      exact hlap hlow hhigh (Nat.min_le_right _ _) (ih (by omega) past (by omega) (by omega))
  | case3 first hge => omega

theorem spans_lapped (w : LineWindow) {index : LineIndex} (h : index.Sound)
    (htotal : 0 < index.lineCount) : Lapped 0 index.size (w.spans index) := by
  have hlapped := w.rowsFrom_lapped h htotal 0 (Nat.le_refl _) (Nat.zero_le _)
  rwa [Int.natCast_zero, LineIndex.lineStart_zero, Int.natCast_zero] at hlapped

/-- The spans of the windows of some contents with a line are what they have to be. -/
theorem spans_cutsInto (w : LineWindow) (contents : Contents)
    (htotal : 0 < (LineIndex.ofContents contents).lineCount) :
    w.CutsInto contents (LineIndex.ofContents contents).lineCount
      (w.spans (.ofContents contents)) where
  lines := fun _ => LineIndex.lt_lineCount_iff
  count := by
    rw [w.length_spans]
    exact w.length_rowsFrom htotal
  inside := w.spans_bounds (LineIndex.sound_ofContents contents)
  ends := fun _ _ h => w.spans_getElem? h
  holds := fun _ _ h _ hi => spans_holds h hi
  cover := by
    intro r hr
    obtain ⟨i, hi, rfl⟩ := LineIndex.lt_lineCount_iff.mp hr
    obtain ⟨s, hs, hheld⟩ := w.spans_cover (LineIndex.sound_ofContents contents) hi
    obtain ⟨k, hk⟩ := List.mem_iff_getElem?.mp hs
    exact ⟨k, (List.getElem?_eq_some_iff.mp hk).1, (spans_holds hk hi).mp hheld⟩
  last := by
    intro k hk
    have hfirst := step_lt_of_lt_length hk
    rw [mem_rows, ← reach_iff hk]
    omega
  shared := by
    intro k hk
    have hreach := reach_iff (Nat.lt_of_succ_lt hk)
    exact card_rows_inter (by omega)
  fresh := by
    have hlapped := w.spans_lapped (LineIndex.sound_ofContents contents) htotal
    rw [hlapped.freshBytes_eq (Int.le_refl _) (Int.le_refl _)]
    exact congrArg Array.toList (slice_all contents)

end

/-! ## The chunks of windows -/

section

variable {d : Document} {language : Text} {strategy : Strategy} {chunks : List Chunk}

theorem spans_getElem?_of_chunkAt
    (h : List.Forall₂ (d.ChunkAt language strategy) (w.spans (.ofContents d.contents)) chunks)
    {c : Chunk} (hc : chunks[k]? = some c) :
    (w.spans (.ofContents d.contents))[k]? = some c.span := by
  rw [← map_span_of_chunkAt h, List.getElem?_map, hc]
  rfl

theorem startPoint_of_chunkAt
    (h : List.Forall₂ (d.ChunkAt language strategy) (w.spans (.ofContents d.contents)) chunks)
    {c : Chunk} (hc : chunks[k]? = some c) : c.startPoint = ⟨k * w.step, 0⟩ := by
  have hspan := spans_getElem?_of_chunkAt h hc
  have hfirst := step_lt_of_lt_length (List.getElem?_eq_some_iff.mp hspan).1
  have hpoint := (chunkAt_of_mem h c (List.mem_of_getElem? hc)).startPoint
  rw [(w.spans_getElem? hspan).1, LineIndex.pointAt_lineStart hfirst] at hpoint
  exact (Except.ok.inj hpoint).symm

/-- A window that is not the last one stops where a line starts. -/
theorem stopPoint_of_chunkAt
    (h : List.Forall₂ (d.ChunkAt language strategy) (w.spans (.ofContents d.contents)) chunks)
    {c : Chunk} (hc : chunks[k]? = some c) (hnext : k + 1 < chunks.length) :
    c.stopPoint = ⟨k * w.step + w.lines, 0⟩ := by
  have hspan := spans_getElem?_of_chunkAt h hc
  have hreach := reach_iff (List.getElem?_eq_some_iff.mp hspan).1
  rw [← h.length_eq] at hnext
  have hpast : k * w.step + w.lines < (LineIndex.ofContents d.contents).lineCount := by omega
  have hpoint := (chunkAt_of_mem h c (List.mem_of_getElem? hc)).stopPoint
  rw [(w.spans_getElem? hspan).2, Nat.min_eq_left (Nat.le_of_lt hpast),
    LineIndex.pointAt_lineStart hpast] at hpoint
  exact (Except.ok.inj hpoint).symm

/-- Of two chunks in a row the second starts the overlap before the first stops. -/
theorem points_overlap
    (h : List.Forall₂ (d.ChunkAt language strategy) (w.spans (.ofContents d.contents)) chunks) :
    chunks.IsChain fun a b => a.stopPoint = ⟨b.startPoint.row + w.overlap, 0⟩ := by
  refine List.isChain_iff_getElem.mpr fun k hk => ?_
  have hstop := stopPoint_of_chunkAt h (List.getElem?_eq_getElem (Nat.lt_of_succ_lt hk)) hk
  have hstart := startPoint_of_chunkAt h (List.getElem?_eq_getElem hk)
  have hlines := w.lines_eq
  rw [hstop, hstart, Nat.succ_mul, hlines, Nat.add_assoc]

end

end LineWindow

/-- Contents with a line are cut into windows as they have to be, and in the chunks made of the
windows the points say the same. -/
theorem windows_of_lines (contents : Contents) (w : LineWindow)
    (htotal : 0 < (LineIndex.ofContents contents).lineCount) :
    ∃ spans, LineWindow.spansOf w.lines w.overlap (.ofContents contents) = .ok spans ∧
      w.CutsInto contents (LineIndex.ofContents contents).lineCount spans ∧
      ∀ grammars registry config d chunks, d.contents = contents → config.window = w →
        chunkDocument grammars registry config d = .ok chunks →
        (∃ c ∈ chunks, c.strategy = .lineWindow) →
        chunks.map Chunk.span = spans ∧
          (∀ (k : Nat) (c : Chunk), chunks[k]? = some c → c.startPoint = ⟨k * w.step, 0⟩) ∧
          chunks.IsChain fun a b => a.stopPoint = ⟨b.startPoint.row + w.overlap, 0⟩ := by
  refine ⟨w.spans (.ofContents contents), w.spansOf_self _, w.spans_cutsInto contents htotal, ?_⟩
  rintro grammars registry config d chunks rfl rfl hchunks hwindow
  have hat := chunkAt_windows hchunks hwindow
  exact ⟨map_span_of_chunkAt hat, fun k c hc => LineWindow.startPoint_of_chunkAt hat hc,
    LineWindow.points_overlap hat⟩

/-- There are no languages. -/
def Registry.empty : Registry where
  entries := []
  names_nodup := .nil

/-- Windows of three lines, of which two in a row share one. -/
def threeLinesEach : Config :=
  { Config.standard with window := { lines := 3, overlap := 1 } }

/-- Six lines, of which the last has no line feed. -/
def sixLines : Document :=
  ⟨.ofText "a\nb\nc\nd\né\nf", none, ""⟩

/-- The chunks of the six lines: two full windows, and a partial one. -/
def sixLinesChunks : List Chunk :=
  [⟨"a\nb\nc\n", "text", ⟨0, 0⟩, ⟨3, 0⟩, ⟨0, 6⟩, .lineWindow, ""⟩,
    ⟨"c\nd\né\n", "text", ⟨2, 0⟩, ⟨5, 0⟩, ⟨4, 11⟩, .lineWindow, ""⟩,
    ⟨"é\nf", "text", ⟨4, 0⟩, ⟨5, 1⟩, ⟨8, 12⟩, .lineWindow, ""⟩]

theorem windows_of_lines_six :
    0 < (LineIndex.ofContents sixLines.contents).lineCount ∧
      chunkDocument noGrammars .empty threeLinesEach sixLines = .ok sixLinesChunks ∧
      (∃ c ∈ sixLinesChunks, c.strategy = .lineWindow) ∧
      ∃ spans, LineWindow.spansOf 3 1 (.ofContents sixLines.contents) = .ok spans ∧
        sixLinesChunks.map Chunk.span = spans ∧
        freshBytes sixLines.contents 0 spans = sixLines.contents.toList := by
  have htotal : 0 < (LineIndex.ofContents sixLines.contents).lineCount := by decide +kernel
  have hrun : chunkDocument noGrammars .empty threeLinesEach sixLines = .ok sixLinesChunks := by
    decide +kernel
  have hwindow : ∃ c ∈ sixLinesChunks, c.strategy = .lineWindow := ⟨_, List.mem_cons_self, rfl⟩
  obtain ⟨spans, hspans, hcuts, hchunks⟩ :=
    windows_of_lines sixLines.contents threeLinesEach.window htotal
  have hsame := (hchunks noGrammars .empty threeLinesEach sixLines _ rfl rfl hrun hwindow).1
  exact ⟨htotal, hrun, hwindow, spans, hspans, hsame, hcuts.fresh⟩

end SyntaxChunks
