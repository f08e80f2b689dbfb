/-
# `Proofs.RoundTrip` — when the texts of the chunks add up to the text

Every chunk is decoded on its own, so its ends have to be boundaries.  They are
ends of nodes, ends of the text, and hard cuts.  A hard cut may split a
character that is longer than the budget: `keepsText_iff` says that this is the
only way to lose text.
-/
import SyntaxChunks.Proofs.Chunking
import SyntaxChunks.Proofs.HardCuts
import SyntaxChunks.Proofs.Packing

namespace SyntaxChunks

open Text.Utf8

/-- All nodes of the tree start and stop at boundaries of the text. -/
def Node.OnBoundaries (root : Node) (cs : List Char) : Prop :=
  ∀ k n, root.At k n → n.span.Ends (IsBoundary cs)

/-! ## Ends of chunks -/

section

variable {contents : Contents} {cs : List Char} {config : Config} {root : Node}

theorem ends_pack_of_onBoundaries (hroot : root.OnBoundaries cs) (budget : Int) :
    ∀ s ∈ pack budget root, s.Ends (IsBoundary cs) := by
  intro s hs
  obtain ⟨⟨k, n, hn, hstart⟩, ⟨j, m, hm, hstop⟩⟩ := ends_pack s hs
  rw [Span.Ends, hstart, hstop]
  exact ⟨(hroot k n hn).1, (hroot j m hm).2⟩

theorem ends_boundedSpans (hbytes : contents.toList = encode cs) (hroot : root.OnBoundaries cs)
    (hfit : config.splitLeaves = true → ∀ c ∈ cs, c.utf8Size ≤ config.budget) {bounded : List Span}
    (h : boundedSpans config (.ofContents contents) contents root = .ok bounded) :
    ∀ s ∈ bounded, s.Ends (IsBoundary cs) := by
  have hpack := ends_pack_of_onBoundaries hroot config.budget
  unfold boundedSpans at h
  split at h
  · next hsplit =>
      refine ends_splitOversized (LineIndex.sound_ofContents _) config.budget_pos h ?_ hpack
      intro s hs window i cut hi hover hcut
      have hstop := (hpack s hs).2.bounds.2
      have hsize := size_of_toList hbytes
      exact isBoundary_nextCut hbytes (hfit hsplit) hi (by omega) hcut
  · cases h
    exact hpack

theorem ends_syntaxSpans (hbytes : contents.toList = encode cs) (hroot : root.OnBoundaries cs)
    (hfit : config.splitLeaves = true → ∀ c ∈ cs, c.utf8Size ≤ config.budget) {spans : List Span}
    (h : syntaxSpans config (.ofContents contents) contents root = .ok spans) :
    ∀ s ∈ spans, s.Ends (IsBoundary cs) := by
  obtain ⟨bounded, hbounded, rfl⟩ := syntaxSpans_eq_ok.mp h
  have hends := ends_boundedSpans hbytes hroot hfit hbounded
  have hlast : IsBoundary cs contents.size := by
    rw [size_of_toList hbytes]
    exact isBoundary_length
  exact ends_joinSingleLines (tile_tiles bounded (Int.natCast_nonneg _)) hlast
    (ends_tile isBoundary_zero hlast fun s hs => (hends s (List.mem_of_mem_tail hs)).1)

/-! ## Texts between boundaries -/

/-- The slice from one boundary to another holds the bytes of the characters between them. -/
theorem toList_slice_of_append {front mid back : List Char}
    (hbytes : contents.toList = encode (front ++ mid ++ back)) :
    (contents.slice (encode front).length (encode (front ++ mid)).length).toList = encode mid := by
  have hsize := size_of_toList hbytes
  rw [encode_append, List.length_append] at hsize
  have hlength : (encode (front ++ mid)).length = (encode front).length + (encode mid).length := by
    rw [encode_append, List.length_append]
  rw [toList_slice (by omega) (by omega) (by omega), hbytes, Int.toNat_natCast, Int.toNat_natCast,
    hlength, Nat.add_sub_cancel_left, encode_append, encode_append, List.append_assoc,
    List.drop_left, List.take_left]

/-- Read one by one, the slices of a tiling with ends at boundaries are the rest of the text. -/
theorem Tiles.flatMap_decodeChars (hbytes : contents.toList = encode cs) {a : Int}
    {spans : List Span} (h : Tiles a contents.size spans)
    (hends : ∀ s ∈ spans, s.Ends (IsBoundary cs)) {front back : List Char}
    (hcs : cs = front ++ back) (ha : a = (encode front).length) :
    (spans.flatMap fun s => decodeChars (contents.slice s.start s.stop).toList) = back := by
  have hsize := size_of_toList hbytes
  generalize hb : (contents.size : Int) = b at h
  induction h generalizing front back with
  | nil =>
      cases back with
      | nil => rfl
      | cons c back =>
          have hpos := c.utf8Size_pos
          rw [hcs, encode_append, encode_cons, List.length_append, List.length_append,
            String.length_utf8EncodeChar] at hsize
          omega
  | @cons a m b rest hlt _ ih =>
      obtain ⟨front', back', hcs', hm⟩ := (hends ⟨a, m⟩ List.mem_cons_self).2
      rcases List.append_eq_append_iff.mp (hcs.symm.trans hcs') with
        ⟨mid, rfl, rfl⟩ | ⟨mid, rfl, rfl⟩
      · subst hcs'
        subst ha
        rw [List.flatMap_cons, ih (fun s hs => hends s (List.mem_cons_of_mem _ hs)) rfl hm hb]
        simp only at hm
        rw [hm, toList_slice_of_append hbytes, decodeChars_encode]
      · -- the next boundary does not lie before this one
        rw [encode_append, List.length_append] at ha
        simp only at hm
        omega

end

/-! ## Texts of chunks -/

theorem join_map_ofList {α : Type} (f : α → List Char) (l : List α) :
    String.join (l.map fun a => String.ofList (f a)) = String.ofList (l.flatMap f) := by
  induction l with
  | nil => rfl
  | cons a l ih =>
      rw [List.map_cons, String.join_cons, ih, List.flatMap_cons, String.ofList_append]

theorem join_map_sliceText (d : Document) (spans : List Span) :
    String.join (spans.map d.sliceText)
      = String.ofList (spans.flatMap fun s =>
          decodeChars (d.contents.slice s.start s.stop).toList) :=
  join_map_ofList _ spans

section

variable {grammars : Grammars} {registry : Registry} {config : Config} {d : Document}

theorem map_text_of_chunkAt {language : Text} {strategy : Strategy} {spans : List Span}
    {chunks : List Chunk} (h : List.Forall₂ (d.ChunkAt language strategy) spans chunks) :
    chunks.map Chunk.text = spans.map d.sliceText :=
  map_eq_of_chunkAt (fun _ _ hc => hc.text) h

/-- Under the configuration the chunks of a tree with ends at boundaries add up to the text. -/
def Config.KeepsText (config : Config) (text : String) : Prop :=
  ∀ (grammars : Grammars) (registry : Registry) (d : Document) (root : Node) (language : Text)
    (chunks : List Chunk), d.contents = .ofText text →
    select grammars registry config.timeout d = .ok (some (root, language)) →
    root.OnBoundaries text.toList →
    chunkDocument grammars registry config d = .ok chunks →
    (∃ c ∈ chunks, c.strategy = .syntaxTree) →
    String.join (chunks.map Chunk.text) = text

/-- Text is kept if no character is longer than the budget of the hard cuts. -/
theorem keepsText_of_fits {text : String}
    (hfit : config.splitLeaves = true → ∀ c ∈ text.toList, c.utf8Size ≤ config.budget) :
    config.KeepsText text := by
  intro grammars registry d root language chunks hd hselect hroot hchunks htree
  have hbytes : d.contents.toList = encode text.toList := by
    rw [hd, toList_ofText]
  obtain ⟨spans, hrun⟩ := exists_syntaxRun_of_select hselect hchunks htree
  have hends := ends_syntaxSpans hbytes hroot hfit hrun.cut
  rw [map_text_of_chunkAt hrun.chunkAt, join_map_sliceText,
    (syntaxSpans_tiles hrun.cut).flatMap_decodeChars hbytes hends (List.nil_append _).symm rfl,
    String.ofList_toList]

end

/-! ## A character cut in two -/

/-- A text whose fourth character has four bytes, and lines on both sides of it. -/
def wideText : String := "aa\n😀a\nb"

def wideDocument : Document :=
  ⟨.ofText wideText, none, ""⟩

/-- The tree of the text, which is a single leaf. -/
def wideLeaf : Node := ⟨"leaf", 0, 10, false, []⟩

theorem onBoundaries_wideLeaf : wideLeaf.OnBoundaries wideText.toList := by
  intro k n hn
  rw [Node.at_leaf rfl hn]
  exact ⟨isBoundary_zero, isBoundary_length⟩

/-- A budget below four bytes cuts the long character behind its first byte. -/
theorem syntaxSpans_wideLeaf {config : Config} (hsplit : config.splitLeaves = true)
    (hbudget : config.budget < 4) :
    syntaxSpans config (.ofContents wideDocument.contents) wideDocument.contents wideLeaf
      = .ok [⟨0, 4⟩, ⟨4, 10⟩] := by
  have hpos := config.budget_pos
  have hcases : config.budget = 1 ∨ config.budget = 2 ∨ config.budget = 3 := by omega
  rcases hcases with h | h | h <;>
  · rw [syntaxSpans, hsplit, h]
    decide +kernel

theorem not_keepsText_wideText {config : Config} (hsplit : config.splitLeaves = true)
    (hbudget : config.budget < 4) : ¬ config.KeepsText wideText := by
  intro hkeeps
  have hspans := syntaxSpans_wideLeaf hsplit hbudget
  have hpass : isSuccessfulParse (some .both) (some wideLeaf) = true := by decide
  obtain ⟨chunks, hchunks, hat⟩ := exists_chunks_fixed noGrammars hpass (by decide) hspans
  have htree : ∃ c ∈ chunks, c.strategy = .syntaxTree := by
    cases hat with
    | cons hc _ => exact ⟨_, List.mem_cons_self, hc.strategy⟩
  have htext := hkeeps _ _ _ _ _ _ rfl (select_fixed hpass) onBoundaries_wideLeaf hchunks htree
  rw [map_text_of_chunkAt hat, join_map_sliceText] at htext
  revert htext
  decide +kernel

/-- The texts of the chunks add up to the text if no character is longer than the budget, or if
leaves are not split.  Splitting keeps every text only under a budget of four bytes or more. -/
theorem keepsText_iff (config : Config) :
    (∀ text : String, (config.splitLeaves = true → ∀ c ∈ text.toList, c.utf8Size ≤ config.budget) →
      config.KeepsText text) ∧
    ((∀ text, config.KeepsText text) ↔ (config.splitLeaves = true → 4 ≤ config.budget)) := by
  refine ⟨fun text hfit => keepsText_of_fits hfit, fun hall hsplit => ?_, fun hbudget text => ?_⟩
  · by_contra hbudget
    exact not_keepsText_wideText hsplit (Nat.lt_of_not_le hbudget) (hall wideText)
  · exact keepsText_of_fits fun hsplit c _ => Nat.le_trans c.utf8Size_le_four (hbudget hsplit)

end SyntaxChunks
