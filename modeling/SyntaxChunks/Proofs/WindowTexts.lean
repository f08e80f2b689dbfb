/-
# `Proofs.WindowTexts` — the texts of windows, one after the other

Each window is decoded on its own.  As it starts and stops where lines do, its
text is what the whole document has there, whatever the bytes are
(`decodeChars_slice_append`, `dropLines_slice`).  `windowTexts_join` follows
along the windows: the first text, and behind it every later one without the
lines that it shares with the window before, are the text of the document.
-/
import SyntaxChunks.Proofs.DecodedLines
import SyntaxChunks.Proofs.Overlap
import SyntaxChunks.Proofs.RoundTrip
import SyntaxChunks.Proofs.TreeRoute

namespace SyntaxChunks

open Text.Utf8

/-! ## Bytes behind a line feed -/

/-- A slice with a line feed is what comes before it, the line feed, and what comes behind. -/
theorem toList_slice_of_feed {contents : Contents} {a b : Int} {f : Nat}
    (hfeed : contents[f]? = some newline) (ha : 0 ≤ a) (haf : a ≤ f) (hfb : (f : Int) < b)
    (hb : b ≤ contents.size) :
    (contents.slice a b).toList
      = (contents.slice a f).toList ++ newline :: (contents.slice (f + 1 : Nat) b).toList := by
  obtain ⟨hf, hbyte⟩ := Array.getElem?_eq_some_iff.mp hfeed
  have hlength : b.toNat - f = (b.toNat - (f + 1)) + 1 := by omega
  have hdrop : contents.toList.drop f = newline :: contents.toList.drop (f + 1) := by
    rw [List.drop_eq_getElem_cons (by rwa [Array.length_toList]), Array.getElem_toList, hbyte]
  rw [← slice_append_slice ha haf (Int.le_of_lt hfb) hb,
    toList_slice (a := f) (by omega) (by omega) hb,
    toList_slice (a := (f + 1 : Nat)) (by omega) (by omega) hb, Int.toNat_natCast,
    Int.toNat_natCast, hdrop, hlength, List.take_succ_cons]

theorem newline_not_mem_slice {contents : Contents} {a b : Nat} (hab : a ≤ b)
    (hb : b ≤ contents.size) (h : ∀ p, a ≤ p → p < b → contents[p]? ≠ some newline) :
    newline ∉ (contents.slice a b).toList := by
  intro hmem
  rw [toList_slice (by omega) (by omega) (by omega), Int.toNat_natCast, Int.toNat_natCast] at hmem
  obtain ⟨i, hi⟩ := List.mem_iff_getElem?.mp hmem
  rw [List.getElem?_take, List.getElem?_drop, Array.getElem?_toList] at hi
  split at hi
  · exact h (a + i) (by omega) (by omega) hi
  · cases hi

/-- Cut behind a line feed, the bytes are read as they are read in one piece. -/
theorem decodeChars_slice_append {contents : Contents} {a b : Int} {f : Nat}
    (hfeed : contents[f]? = some newline) (ha : 0 ≤ a) (haf : a ≤ f) (hfb : (f : Int) < b)
    (hb : b ≤ contents.size) :
    decodeChars (contents.slice a (f + 1 : Nat)).toList
        ++ decodeChars (contents.slice (f + 1 : Nat) b).toList
      = decodeChars (contents.slice a b).toList := by
  have hbefore : (contents.slice a (f + 1 : Nat)).toList
      = (contents.slice a f).toList ++ [newline] := by
    have hnone : contents.slice (f + 1 : Nat) (f + 1 : Nat) = #[] := by simp [Contents.slice]
    rw [toList_slice_of_feed hfeed ha haf (by omega) (by omega), hnone]
  rw [hbefore, toList_slice_of_feed hfeed ha haf hfb hb, decodeChars_append_newline,
    decodeChars_append_newline, List.append_assoc]
  rfl

/-! ## Slices from the start of a line -/

section

variable {contents : Contents}

/-- Without its first line a slice from the start of a line starts with the next line. -/
theorem dropLine_slice {i : Nat} {b : Int} (hi : i + 1 < (LineIndex.ofContents contents).lineCount)
    (hstop : (LineIndex.ofContents contents).lineStart (i + 1 : Nat) ≤ b)
    (hb : b ≤ contents.size) :
    dropLine newline (contents.slice ((LineIndex.ofContents contents).lineStart i) b).toList
      = (contents.slice ((LineIndex.ofContents contents).lineStart (i + 1 : Nat)) b).toList := by
  obtain ⟨f, hnext, hle, hfeed, hline⟩ := LineIndex.exists_feed_of_line hi
  have hf := (Array.getElem?_eq_some_iff.mp hfeed).1
  rw [hnext] at hstop
  rw [toList_slice_of_feed hfeed (Int.natCast_nonneg _) (Int.ofNat_le.mpr hle) (by omega) hb,
    dropLine_append (newline_not_mem_slice hle (Nat.le_of_lt hf) hline), hnext]

/-- Without its first lines a slice from the start of a line starts that many lines later. -/
theorem dropLines_slice (k : Nat) {i : Nat} {b : Int}
    (hi : i + k < (LineIndex.ofContents contents).lineCount)
    (hstop : (LineIndex.ofContents contents).lineStart (i + k : Nat) ≤ b)
    (hb : b ≤ contents.size) :
    dropLines newline k (contents.slice ((LineIndex.ofContents contents).lineStart i) b).toList
      = (contents.slice ((LineIndex.ofContents contents).lineStart (i + k : Nat)) b).toList := by
  induction k generalizing i with
  | zero => rfl
  | succ k ih =>
      have hshift : i + (k + 1) = i + 1 + k := by omega
      have hfirst := LineIndex.lineStart_le (LineIndex.sound_ofContents contents)
        (show i + 1 ≤ i + (k + 1) by omega) (Nat.le_of_lt hi)
      rw [dropLines, dropLine_slice (by omega) (by omega) hb]
      rw [hshift] at hi hstop ⊢
      exact ih hi hstop

/-! ## The characters of lines -/

/-- The characters of the lines from one up to another. -/
def Contents.lineChars (contents : Contents) (first past : Nat) : List Char :=
  decodeChars (contents.slice ((LineIndex.ofContents contents).lineStart first)
    ((LineIndex.ofContents contents).lineStart past)).toList

theorem lineChars_all (contents : Contents) :
    contents.lineChars 0 (LineIndex.ofContents contents).lineCount
      = decodeChars contents.toList := by
  rw [Contents.lineChars, Int.natCast_zero, LineIndex.lineStart_zero, LineIndex.lineStart_lineCount]
  exact congrArg (fun bytes : Contents => decodeChars bytes.toList) (slice_all contents)

/-- It makes no difference that the lines left out were decoded with the others. -/
theorem dropLines_lineChars {i k j : Nat} (hij : i + k < j)
    (hj : j ≤ (LineIndex.ofContents contents).lineCount) :
    dropLines '\n' k (contents.lineChars i j) = contents.lineChars (i + k) j := by
  have hstop := LineIndex.lineStart_le (LineIndex.sound_ofContents contents)
    (Nat.le_of_lt hij) hj
  have hsize := LineIndex.lineStart_le_size (LineIndex.sound_ofContents contents) hj
  rw [Contents.lineChars, ← decodeChars_dropLines,
    dropLines_slice k (by omega) (Int.ofNat_le.mpr hstop) (Int.ofNat_le.mpr hsize)]
  rfl

/-- The characters of lines are those of the lines up to one of them, and of those from it on. -/
theorem lineChars_append {i m j : Nat} (him : i < m) (hmj : m < j)
    (hj : j ≤ (LineIndex.ofContents contents).lineCount) :
    contents.lineChars i m ++ contents.lineChars m j = contents.lineChars i j := by
  have hsound := LineIndex.sound_ofContents contents
  have hstart := LineIndex.lineStart_lt hsound him (by omega)
  have hstop := LineIndex.lineStart_lt hsound hmj hj
  have hsize : (LineIndex.ofContents contents).lineStart j ≤ contents.size :=
    LineIndex.lineStart_le_size hsound hj
  obtain ⟨n, rfl⟩ : ∃ n, m = n + 1 := ⟨m - 1, by omega⟩
  obtain ⟨f, hcut, _, hfeed, _⟩ := LineIndex.exists_feed_of_line (Nat.lt_of_lt_of_le hmj hj)
  rw [hcut] at hstart hstop
  rw [Contents.lineChars, Contents.lineChars, hcut]
  exact decodeChars_slice_append hfeed (by omega) (by omega) (by omega) (by omega)

end

/-! ## Along the windows -/

/-- Without the lines that they share with the window before, the windows from a line on are the
text behind those lines. -/
theorem LineWindow.flatMap_lineChars (w : LineWindow) {contents : Contents} {first : Nat}
    (h : first + w.overlap < (LineIndex.ofContents contents).lineCount) :
    ((w.rowsFrom (LineIndex.ofContents contents).lineCount first).flatMap fun rows =>
        dropLines '\n' w.overlap (contents.lineChars rows.1 rows.2))
      = contents.lineChars (first + w.overlap) (LineIndex.ofContents contents).lineCount := by
  have hoverlap := w.overlap_lt
  have hlines := w.lines_eq
  fun_induction rowsFrom w (LineIndex.ofContents contents).lineCount first with
  | case1 first hlt past hend =>
      have hpast : past = (LineIndex.ofContents contents).lineCount := by omega
      rw [hpast, List.flatMap_singleton, dropLines_lineChars h (Nat.le_refl _)]
  | case2 first hlt past hmore ih =>
      -- the next window without what it shares begins where this one ends
      have hpast : first + w.step + w.overlap = past := by omega
      rw [List.flatMap_cons, ih (by omega), hpast, dropLines_lineChars (by omega) (by omega),
        lineChars_append (by omega) (by omega) (Nat.le_refl _)]
  | case3 first hge => omega

/-! ## Lines that two texts share -/

/-- A text without its first lines. -/
def withoutLines (k : Nat) (text : String) : String :=
  String.ofList (dropLines '\n' k text.toList)

/-- Texts one after the other, of each but the first what is behind the lines that it shares with
the one before. -/
def joinLapped (overlap : Nat) : List String → String
  | [] => ""
  | first :: later => first ++ String.join (later.map (withoutLines overlap))

theorem joinLapped_zero (texts : List String) : joinLapped 0 texts = String.join texts := by
  have hsame : withoutLines 0 = id := by
    funext text
    exact String.ofList_toList
  cases texts with
  | nil => rfl
  | cons first later => rw [joinLapped, hsame, List.map_id, String.join_cons]

/-- The texts of all windows, without what is there twice, are the text of the document. -/
theorem joinLapped_spans (w : LineWindow) (d : Document) :
    joinLapped w.overlap ((w.spans (.ofContents d.contents)).map d.sliceText)
      = decode d.contents := by
  have htexts : (w.spans (.ofContents d.contents)).map d.sliceText
      = (w.rowsFrom (LineIndex.ofContents d.contents).lineCount 0).map fun rows =>
          String.ofList (d.contents.lineChars rows.1 rows.2) :=
    List.map_map
  have hdrop : ∀ rows : Nat × Nat,
      withoutLines w.overlap (String.ofList (d.contents.lineChars rows.1 rows.2))
        = String.ofList (dropLines '\n' w.overlap (d.contents.lineChars rows.1 rows.2)) := by
    intro rows
    rw [withoutLines, String.toList_ofList]
  have hlines := w.lines_eq
  have hoverlap := w.overlap_lt
  rw [htexts, decode, ← lineChars_all, LineWindow.rowsFrom]
  simp only
  split
  · split
    · next hend =>
        have hpast : min (0 + w.lines) (LineIndex.ofContents d.contents).lineCount
            = (LineIndex.ofContents d.contents).lineCount := by omega
        rw [hpast, List.map_singleton, joinLapped, List.map_nil, String.join_nil,
          String.append_empty]
    · next hmore =>
        have hpast : min (0 + w.lines) (LineIndex.ofContents d.contents).lineCount
            = 0 + w.step + w.overlap := by omega
        rw [List.map_cons, joinLapped, List.map_map, hpast]
        simp only [Function.comp_def, hdrop]
        rw [join_map_ofList, w.flatMap_lineChars (by omega), ← String.ofList_append,
          lineChars_append (by omega) (by omega) (Nat.le_refl _)]
  · next hnone =>
      have hzero : (LineIndex.ofContents d.contents).lineCount = 0 := by omega
      have hempty : d.contents.slice (0 : Nat) (0 : Nat) = #[] := by simp [Contents.slice]
      rw [hzero, Contents.lineChars, Int.natCast_zero, LineIndex.lineStart_zero, hempty]
      rfl

/-! ## The texts of chunks -/

/-- A document that is cut into windows, if it is cut at all, has the texts of its windows: without
the lines that two in a row share they are the text of the document, and so they are as they stand
if no lines are shared. -/
theorem windowTexts_join (grammars : Grammars) (registry : Registry) (config : Config)
    (d : Document) :
    ∃ chunks, chunkDocument grammars registry config d = .ok chunks ∧
      ((∀ c ∈ chunks, c.strategy = .lineWindow) →
        joinLapped config.window.overlap (chunks.map Chunk.text) = decode d.contents ∧
          (config.window.overlap = 0 →
            String.join (chunks.map Chunk.text) = decode d.contents)) := by
  obtain ⟨chunks, hchunks, hcases⟩ := chunkDocument_cases grammars registry config d
  refine ⟨chunks, hchunks, fun hwindows => ?_⟩
  have hjoin : joinLapped config.window.overlap (chunks.map Chunk.text) = decode d.contents := by
    rcases hcases with ⟨hempty, rfl⟩ | ⟨hne, ⟨root, language, spans, hrun⟩ | hat⟩
    · rw [hempty]
      rfl
    · -- along a tree there is a chunk, and it says so
      obtain ⟨c, hc⟩ := List.exists_mem_of_ne_nil chunks (hrun.ne_nil hne)
      have htree := (chunkAt_of_mem hrun.chunkAt c hc).strategy
      rw [hwindows c hc] at htree
      cases htree
    · rw [map_text_of_chunkAt hat]
      exact joinLapped_spans config.window d
  refine ⟨hjoin, fun hzero => ?_⟩
  rw [hzero, joinLapped_zero] at hjoin
  exact hjoin

/-- Windows of two lines, of which no two share one. -/
def twoLinesEach : Config :=
  { Config.standard with window := ⟨2, 0, Nat.two_pos⟩ }

/-- Bytes that are no UTF-8: a character with a line feed inside, one that ends with its line, a
byte that starts none, and a character that ends with the document. -/
def brokenLines : Document :=
  ⟨#[0x61, 0xE2, 0x82, 0x0A, 0xAC, 0x0A, 0xC3, 0x0A, 0xA9, 0xFF, 0x0A, 0x62, 0xF0], none, ""⟩

/-- The chunks of the bytes: two windows that share a line. -/
def brokenLinesLapped : List Chunk :=
  [⟨"a\uFFFD\n\uFFFD\n\uFFFD\n", "text", ⟨0, 0⟩, ⟨3, 0⟩, ⟨0, 8⟩, .lineWindow, ""⟩,
    ⟨"\uFFFD\n\uFFFD\uFFFD\nb\uFFFD", "text", ⟨2, 0⟩, ⟨4, 2⟩, ⟨6, 13⟩, .lineWindow, ""⟩]

/-- The chunks of the bytes: three windows that share no line. -/
def brokenLinesApart : List Chunk :=
  [⟨"a\uFFFD\n\uFFFD\n", "text", ⟨0, 0⟩, ⟨2, 0⟩, ⟨0, 6⟩, .lineWindow, ""⟩,
    ⟨"\uFFFD\n\uFFFD\uFFFD\n", "text", ⟨2, 0⟩, ⟨4, 0⟩, ⟨6, 11⟩, .lineWindow, ""⟩,
    ⟨"b\uFFFD", "text", ⟨4, 0⟩, ⟨4, 2⟩, ⟨11, 13⟩, .lineWindow, ""⟩]

theorem windowTexts_join_brokenLines :
    chunkDocument noGrammars .empty threeLinesEach brokenLines = .ok brokenLinesLapped ∧
      (∀ c ∈ brokenLinesLapped, c.strategy = .lineWindow) ∧
      joinLapped 1 (brokenLinesLapped.map Chunk.text) = decode brokenLines.contents ∧
      chunkDocument noGrammars .empty twoLinesEach brokenLines = .ok brokenLinesApart ∧
      (∀ c ∈ brokenLinesApart, c.strategy = .lineWindow) ∧ twoLinesEach.window.overlap = 0 ∧
      String.join (brokenLinesApart.map Chunk.text) = decode brokenLines.contents := by
  have hlapped : chunkDocument noGrammars .empty threeLinesEach brokenLines
      = .ok brokenLinesLapped := by
    decide +kernel
  have hapart : chunkDocument noGrammars .empty twoLinesEach brokenLines
      = .ok brokenLinesApart := by
    decide +kernel
  have hwindows : (∀ c ∈ brokenLinesLapped, c.strategy = .lineWindow) ∧
      ∀ c ∈ brokenLinesApart, c.strategy = .lineWindow := by
    decide
  obtain ⟨_, hchunks, hjoin⟩ := windowTexts_join noGrammars .empty threeLinesEach brokenLines
  rw [hlapped] at hchunks
  cases hchunks
  obtain ⟨_, hchunks, hjoin'⟩ := windowTexts_join noGrammars .empty twoLinesEach brokenLines
  rw [hapart] at hchunks
  cases hchunks
  exact ⟨hlapped, hwindows.1, (hjoin hwindows.1).1, hapart, hwindows.2, rfl,
    (hjoin' hwindows.2).2 rfl⟩

end SyntaxChunks
