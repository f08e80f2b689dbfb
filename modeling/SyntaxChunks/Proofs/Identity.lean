/-
# `Proofs.Identity` — what tells one chunk from another

The text that a chunk is known by ends with its two offsets, each behind a double colon.  The path
in front may hold double colons and digits of its own, but an offset holds no colon, so the text is
read from its end: the last colon stands before the second offset, and what is left ends with the
first (`append_colons_inj`).  No two chunks of one document start at the same offset, along a tree
because they tile it and in windows because each starts at a later line, so no two have one text
(`idText_identifies`).
-/
import Mathlib.Data.Set.Basic
import SyntaxChunks.Proofs.Chunking
import SyntaxChunks.Proofs.Numerals
import SyntaxChunks.Proofs.Texts

namespace SyntaxChunks

/-! ## Reading a text from its end -/

/-- Behind the last occurrence of a member two ways to take a list apart agree. -/
theorem eq_and_eq_of_append_cons {α : Type} {a : α} {xs xs' ys ys' : List α} (hys : a ∉ ys)
    (hys' : a ∉ ys') (h : xs ++ a :: ys = xs' ++ a :: ys') : xs = xs' ∧ ys = ys' := by
  rcases List.append_eq_append_iff.mp h with ⟨between, hxs, htail⟩ | ⟨between, hxs, htail⟩
  · cases between with
    | nil =>
        rw [List.append_nil] at hxs
        exact ⟨hxs.symm, (List.cons.inj htail).2⟩
    | cons b between =>
        rw [(List.cons.inj htail).2] at hys
        exact absurd (List.mem_append_right between List.mem_cons_self) hys
  · cases between with
    | nil =>
        rw [List.append_nil] at hxs
        exact ⟨hxs, (List.cons.inj htail).2.symm⟩
    | cons b between =>
        rw [(List.cons.inj htail).2] at hys'
        exact absurd (List.mem_append_right between List.mem_cons_self) hys'

theorem colon_not_mem_toString (i : Int) : .char ':' ∉ Text.ofString (toString i) := by
  rw [Text.char_mem_ofString, Number.toList_toString, List.mem_append, not_or]
  constructor
  · split <;> decide
  · intro hdigit
    exact absurd (Number.isDigit_of_mem_numeral _ hdigit) (by decide)

/-- Whatever stands in front, an offset behind a double colon is read back. -/
theorem append_colons_inj {x x' : Text} {i i' : Int} :
    x ++ Text.ofString "::" ++ Text.ofString (toString i)
      = x' ++ Text.ofString "::" ++ Text.ofString (toString i') ↔ x = x' ∧ i = i' := by
  constructor
  · intro h
    have hcolons : ∀ y z : Text,
        y ++ Text.ofString "::" ++ z = (y ++ [.char ':']) ++ .char ':' :: z := by
      intro y z
      rw [List.append_assoc, List.append_assoc]
      rfl
    rw [hcolons, hcolons] at h
    obtain ⟨hfront, hoffset⟩ := eq_and_eq_of_append_cons (colon_not_mem_toString i)
      (colon_not_mem_toString i') h
    exact ⟨List.append_cancel_right hfront, Number.eq_of_toString_eq (Text.ofString_inj.mp hoffset)⟩
  · rintro ⟨rfl, rfl⟩
    rfl

/-- The text of a chunk tells its path and both its offsets. -/
theorem idText_inj {c c' : Chunk} :
    c.idText = c'.idText ↔
      c.path = c'.path ∧ c.span.start = c'.span.start ∧ c.span.stop = c'.span.stop := by
  rw [Chunk.idText, Chunk.idText, append_colons_inj, append_colons_inj, and_assoc]

/-- Only the path decides whether the text has a UTF-8 form. -/
theorem utf8?_idText_eq_none_iff {c : Chunk} : c.idText.utf8? = none ↔ c.path.utf8? = none := by
  simp only [Text.utf8?_eq_none_iff, Chunk.idText, List.mem_append,
    Text.surrogate_not_mem_ofString, or_false]

/-! ## Chunks of one document -/

/-- Each span starts behind the start of the one before. -/
def Ascending (spans : List Span) : Prop :=
  spans.Pairwise fun s t => s.start < t.start

theorem Tiles.ascending {a b : Int} {spans : List Span} (h : Tiles a b spans) :
    Ascending spans := by
  refine h.inOrder.pairwise.imp_of_mem fun {s t} hs _ hst => ?_
  exact Int.lt_of_lt_of_le (h.nonempty s hs) hst

namespace LineWindow

theorem rowsFrom_ascending (w : LineWindow) {total first : Nat} :
    (w.rowsFrom total first).Pairwise fun a b => a.1 < b.1 := by
  have hstep := w.step_pos
  fun_induction rowsFrom w total first with
  | case1 first hlt past hend => exact List.pairwise_singleton _ _
  | case2 first hlt past hmore ih =>
      refine .cons (fun rows hrows => ?_) ih
      have hlater := (w.rowsFrom_bounds rows hrows).1
      simp only
      omega
  | case3 => exact .nil

theorem spans_ascending (w : LineWindow) {index : LineIndex} (h : index.Sound) :
    Ascending (w.spans index) := by
  refine List.pairwise_map.mpr (w.rowsFrom_ascending.imp_of_mem fun {a b} _ hb hab => ?_)
  obtain ⟨_, hlt, hle⟩ := w.rowsFrom_bounds b hb
  exact Int.ofNat_lt.mpr (LineIndex.lineStart_lt h hab (by omega))

end LineWindow

/-- No two chunks of a document start at one offset. -/
theorem chunkDocument_ascending (grammars : Grammars) (registry : Registry) (config : Config)
    (d : Document) :
    ∃ chunks, chunkDocument grammars registry config d = .ok chunks ∧
      Ascending (chunks.map Chunk.span) := by
  obtain ⟨chunks, hchunks, hcases⟩ := chunkDocument_cases grammars registry config d
  refine ⟨chunks, hchunks, ?_⟩
  rcases hcases with ⟨_, rfl⟩ | ⟨_, ⟨root, language, spans, hrun⟩ | hwindows⟩
  · exact .nil
  · exact hrun.tiles.ascending
  · rw [map_span_of_chunkAt hwindows]
    exact config.window.spans_ascending (LineIndex.sound_ofContents _)

theorem nodup_idText {chunks : List Chunk} (h : Ascending (chunks.map Chunk.span)) :
    (chunks.map Chunk.idText).Nodup := by
  refine List.pairwise_map.mpr ((List.pairwise_map.mp h).imp fun {c c'} hlt hsame => ?_)
  exact absurd (idText_inj.mp hsame).2.1 (Int.ne_of_lt hlt)

/-! ## Digests -/

/-- The digest of a text, if it has a UTF-8 form. -/
def digestOf (text : Text) : Option String :=
  text.utf8?.map Sha256.hex

theorem Chunk.id?_eq (c : Chunk) : c.id? = digestOf c.idText := rfl

/-- A chunk has no digest exactly if its path has no UTF-8 form. -/
theorem id?_eq_none_iff {c : Chunk} : c.id? = none ↔ c.path.utf8? = none := by
  rw [Chunk.id?, Option.map_eq_none_iff, utf8?_idText_eq_none_iff]

/-- No two of the texts have one digest. -/
def CollisionFree (texts : Set Text) : Prop :=
  ∀ t ∈ texts, ∀ t' ∈ texts, digestOf t ≠ none → digestOf t = digestOf t' → t = t'

theorem nodup_id? {chunks : List Chunk} (h : (chunks.map Chunk.idText).Nodup)
    (hid : ∀ c ∈ chunks, c.id? ≠ none)
    (hfree : CollisionFree {text | text ∈ chunks.map Chunk.idText}) :
    (chunks.map Chunk.id?).Nodup := by
  have htexts := List.pairwise_map.mp h
  refine List.pairwise_map.mpr (htexts.imp_of_mem fun {c c'} hc hc' hne hsame => ?_)
  exact hne (hfree _ (List.mem_map_of_mem hc) _ (List.mem_map_of_mem hc') (hid c hc) hsame)

theorem id?_eq_iff_of_collisionFree {texts : Set Text} (hfree : CollisionFree texts) {c c' : Chunk}
    (hc : c.idText ∈ texts) (hc' : c'.idText ∈ texts) (hid : c.id? ≠ none) :
    c.id? = c'.id? ↔ c.path = c'.path ∧ c.span = c'.span := by
  have hspan : c.span = c'.span ↔ c.span.start = c'.span.start ∧ c.span.stop = c'.span.stop := by
    rw [← Span.mk.injEq]
  rw [hspan, ← idText_inj, c.id?_eq, c'.id?_eq]
  constructor
  · intro hsame
    exact hfree _ hc _ hc' hid hsame
  · intro htext
    rw [htext]

theorem path_of_mem_chunkDocument {grammars : Grammars} {registry : Registry} {config : Config}
    {d : Document} {chunks : List Chunk}
    (h : chunkDocument grammars registry config d = .ok chunks) :
    ∀ c ∈ chunks, c.path = d.path := by
  intro c hc
  rcases run_of_mem h hc with ⟨_, root, language, spans, hrun⟩ | ⟨_, hwindows⟩
  · exact (chunkAt_of_mem hrun.chunkAt c hc).path
  · exact (chunkAt_of_mem hwindows c hc).path

/-- Chunks are told apart by their texts: two chunks have one text exactly if they have one path and
one span, and no two chunks of a document have one text.  A chunk has a digest unless its path has
no UTF-8 form.  Where no two texts have one digest, the digests that there are tell chunks apart as
well, and so do those of a document. -/
theorem idText_identifies :
    (∀ c c' : Chunk, c.idText = c'.idText ↔
      c.path = c'.path ∧ c.span.start = c'.span.start ∧ c.span.stop = c'.span.stop) ∧
    (∀ c : Chunk, c.id? = none ↔ c.path.utf8? = none) ∧
    (∀ (grammars : Grammars) (registry : Registry) (config : Config) (d : Document),
      ∃ chunks, chunkDocument grammars registry config d = .ok chunks ∧
        (chunks.map Chunk.idText).Nodup ∧
        (CollisionFree {text | text ∈ chunks.map Chunk.idText} → d.path.utf8? ≠ none →
          (chunks.map Chunk.id?).Nodup)) ∧
    ∀ texts : Set Text, CollisionFree texts → ∀ c c' : Chunk, c.idText ∈ texts →
      c'.idText ∈ texts → c.id? ≠ none →
      (c.id? = c'.id? ↔ c.path = c'.path ∧ c.span = c'.span) := by
  refine ⟨fun _ _ => idText_inj, fun _ => id?_eq_none_iff, fun grammars registry config d => ?_,
    fun _ hfree _ _ => id?_eq_iff_of_collisionFree hfree⟩
  obtain ⟨chunks, hchunks, hascending⟩ := chunkDocument_ascending grammars registry config d
  have hnodup := nodup_idText hascending
  refine ⟨chunks, hchunks, hnodup, fun hfree hpath => nodup_id? hnodup (fun c hc => ?_) hfree⟩
  rw [Ne, id?_eq_none_iff, path_of_mem_chunkDocument hchunks c hc]
  exact hpath

/-- A chunk of a file whose path looks like the text of a chunk. -/
def colonsInPath : Chunk :=
  ⟨"", "text", ⟨0, 0⟩, ⟨0, 0⟩, ⟨2, 3⟩, .lineWindow, "a::1"⟩

/-- A chunk of another file, at offsets that no document has. -/
def negativeOffsets : Chunk :=
  ⟨"", "text", ⟨0, 0⟩, ⟨0, 0⟩, ⟨-1, 23⟩, .lineWindow, "a"⟩

theorem idText_identifies_colons :
    colonsInPath.idText = Text.ofString "a::1::2::3" ∧
      negativeOffsets.idText = Text.ofString "a::-1::23" ∧
      CollisionFree {colonsInPath.idText, negativeOffsets.idText} ∧ colonsInPath.id? ≠ none ∧
      colonsInPath.id? ≠ negativeOffsets.id? := by
  have hfree : CollisionFree {colonsInPath.idText, negativeOffsets.idText} := by
    have hne : digestOf colonsInPath.idText ≠ digestOf negativeOffsets.idText := by decide +kernel
    rintro t (rfl | rfl) t' (rfl | rfl) _ hsame
    · rfl
    · exact absurd hsame hne
    · exact absurd hsame.symm hne
    · rfl
  have hsome : colonsInPath.id? ≠ none := by decide +kernel
  have hid :=
    idText_identifies.2.2.2 _ hfree colonsInPath negativeOffsets (.inl rfl) (.inr rfl) hsome
  refine ⟨by decide +kernel, by decide +kernel, hfree, hsome, fun hsame => ?_⟩
  exact absurd (hid.mp hsame).1 (by decide)

end SyntaxChunks
