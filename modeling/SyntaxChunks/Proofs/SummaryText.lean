/-
# `Proofs.SummaryText` — when a summary can be written, and what is read of it

The object of a chunk, of an entry and of a summary can be read back, however large its numbers
are, if lists and objects may be nested six deep (`Summary.parseWithin_printed`).  There is such an
object unless a chunk that is to be shown has no id (`SummaryEntry.toJson?_eq_none_iff`).

A surrogate of a path stands in the text of its entry as it is, so an output that has no form for it
cannot write the summary (`surrogate_mem_render`).
-/
import SyntaxChunks.Cli.Run
import SyntaxChunks.Proofs.JsonText
import SyntaxChunks.Proofs.Texts

namespace SyntaxChunks

/-! ## The object of an entry -/

namespace SummaryEntry

variable {showsChunks : Bool} {e : SummaryEntry} {entry : Json}

/-- An entry that can be written is that of a refused file, or of the chunks of a file, with their
objects if they are shown. -/
theorem toJson?_eq_some (h : e.toJson? showsChunks = some entry) :
    (∃ path message, e = .failed path message ∧
      entry = .obj [("path", .str path), ("error", .str message)]) ∨
    ∃ path chunks, e = .chunked path chunks ∧
      ((showsChunks = false ∧ entry = .obj (headMembers path chunks)) ∨
        (showsChunks = true ∧ ∃ items, chunks.mapM Chunk.toJson? = some items ∧
          entry = .obj (headMembers path chunks ++ [(Text.ofString "items", .arr items)]))) := by
  cases e with
  | failed path message =>
      cases h
      exact .inl ⟨path, message, rfl, rfl⟩
  | chunked path chunks =>
      refine .inr ⟨path, chunks, rfl, ?_⟩
      cases showsChunks with
      | false =>
          cases h
          exact .inl ⟨rfl, rfl⟩
      | true =>
          obtain ⟨items, hitems, h⟩ := Option.bind_eq_some_iff.mp h
          cases h
          exact .inr ⟨rfl, items, hitems, rfl⟩

end SummaryEntry

/-! ## Objects that can be read back -/

section

variable {limits : Json.Limits} {depth : Nat}

theorem readableWithin_int (h : limits.digits = none) (value : Int) :
    Json.ReadableWithin limits depth (.int value) :=
  .int fun d hd => by
    rw [h] at hd
    cases hd

theorem Chunk.readableWithin_pointJson (h : limits.digits = none) (p : Point) :
    Json.ReadableWithin limits (depth + 1) (Chunk.pointJson p) := by
  refine .arr fun v hv => ?_
  rcases List.mem_pair.mp hv with rfl | rfl
  · exact readableWithin_int h _
  · exact readableWithin_int h _

theorem Chunk.readableWithin_objectWith (h : limits.digits = none) (c : Chunk) (id : String) :
    Json.ReadableWithin limits (depth + 2) (c.objectWith id) := by
  refine .obj (by simp) ?_
  simp only [List.forall_mem_cons, List.not_mem_nil, false_imp_iff, implies_true, and_true]
  exact ⟨.str _, .str _, .str _, .str _, readableWithin_int h _, readableWithin_int h _,
    readableWithin_pointJson h _, readableWithin_pointJson h _, .str _⟩

namespace SummaryEntry

theorem readableWithin_headMembers (h : limits.digits = none) (path : Text) (chunks : List Chunk) :
    ∀ m ∈ headMembers path chunks, Json.ReadableWithin limits depth m.2 := by
  have hfirst : ∀ f : Chunk → Text, Json.ReadableWithin limits depth
      (chunks.head?.elim Json.null fun c => .str (f c)) := by
    intro f
    cases chunks.head? with
    | none => exact .null
    | some c => exact .str _
  simp only [headMembers, List.forall_mem_cons, List.not_mem_nil, false_imp_iff, implies_true,
    and_true]
  exact ⟨.str _, hfirst _, hfirst _, readableWithin_int h _⟩

theorem readableWithin_of_toJson? (h : limits.digits = none) {showsChunks : Bool}
    {e : SummaryEntry} {entry : Json} (hentry : e.toJson? showsChunks = some entry) :
    Json.ReadableWithin limits (depth + 4) entry := by
  rcases toJson?_eq_some hentry with ⟨path, message, rfl, rfl⟩ |
    ⟨path, chunks, rfl, ⟨_, rfl⟩ | ⟨_, items, hitems, rfl⟩⟩
  · refine .obj (by simp) ?_
    simp only [List.forall_mem_cons, List.not_mem_nil, false_imp_iff, implies_true, and_true]
    exact ⟨.str _, .str _⟩
  · exact .obj (by simp [headMembers]) (readableWithin_headMembers h path chunks)
  · refine .obj (by simp [headMembers]) fun m hm => ?_
    rcases List.mem_append.mp hm with hm | hm
    · exact readableWithin_headMembers h path chunks m hm
    · rw [List.mem_singleton.mp hm]
      refine .arr fun item hitem => ?_
      obtain ⟨c, _, hc⟩ := exists_of_mem_right (mapM_eq_some.mp hitems) hitem
      obtain ⟨id, _, rfl⟩ := Option.map_eq_some_iff.mp hc
      exact c.readableWithin_objectWith h id

end SummaryEntry

/-- The line of a summary is read back as the summary. -/
theorem Summary.parseWithin_printed {s : Summary} {entries : List Json}
    (hentries : s.entries.mapM (SummaryEntry.toJson? s.showsChunks) = some entries)
    (h : limits.digits = none) (hdepth : 6 ≤ limits.depth) :
    Json.parseWithin limits ((s.objectWith entries).render ++ Text.ofString "\n")
      = .ok (s.objectWith entries) := by
  obtain ⟨depth, hdepth⟩ := Nat.exists_eq_add_of_le' hdepth
  refine Json.parseWithin_render ?_
  rw [hdepth]
  refine .obj (by simp) ?_
  simp only [List.forall_mem_cons, List.not_mem_nil, false_imp_iff, implies_true, and_true]
  refine ⟨.arr fun entry hentry => ?_, readableWithin_int h _, readableWithin_int h _,
    readableWithin_int h _⟩
  obtain ⟨e, _, he⟩ := exists_of_mem_right (mapM_eq_some.mp hentries) hentry
  exact SummaryEntry.readableWithin_of_toJson? h he

end

/-! ## Chunks without an id -/

namespace SummaryEntry

/-- The path of an entry. -/
def path : SummaryEntry → Text
  | .failed path _ => path
  | .chunked path _ => path

@[simp]
theorem path_of (r : FileReport) : (of r).path = r.path := by
  unfold of
  split <;> rfl

/-- The chunks of an entry. -/
def chunks : SummaryEntry → List Chunk
  | .failed _ _ => []
  | .chunked _ chunks => chunks

/-- An entry has no object exactly if its chunks are to be shown and one has no id. -/
theorem toJson?_eq_none_iff {showsChunks : Bool} {e : SummaryEntry} :
    e.toJson? showsChunks = none ↔ showsChunks = true ∧ ∃ c ∈ e.chunks, c.id? = none := by
  cases e with
  | failed path message => simp [toJson?, chunks]
  | chunked path own =>
      cases showsChunks with
      | false => simp [toJson?]
      | true =>
          have hitems : toJson? true (.chunked path own) = none ↔
              own.mapM Chunk.toJson? = none := by
            simp only [toJson?, if_true]
            cases own.mapM Chunk.toJson? <;> simp
          rw [hitems, mapM_eq_none]
          simp only [Chunk.toJson?, Option.map_eq_none_iff, chunks, true_and]

/-- Whatever is shown of a file, its path is. -/
theorem exists_path_mem {showsChunks : Bool} {e : SummaryEntry} {entry : Json}
    (h : e.toJson? showsChunks = some entry) :
    ∃ members, entry = .obj members ∧ (Text.ofString "path", .str e.path) ∈ members := by
  rcases toJson?_eq_some h with ⟨path, message, rfl, rfl⟩ |
    ⟨path, chunks, rfl, ⟨_, rfl⟩ | ⟨_, items, _, rfl⟩⟩
  · exact ⟨_, rfl, List.mem_cons_self⟩
  · exact ⟨_, rfl, List.mem_cons_self⟩
  · exact ⟨_, rfl, List.mem_append_left _ List.mem_cons_self⟩

end SummaryEntry

/-! ## Surrogates in the text -/

/-- A surrogate of a path stands in the text of the summary. -/
theorem Summary.surrogate_mem_render {s : Summary} {entries : List Json}
    (hentries : s.entries.mapM (SummaryEntry.toJson? s.showsChunks) = some entries)
    {e : SummaryEntry} (he : e ∈ s.entries) {x : Surrogate} (hx : .surrogate x ∈ e.path) :
    .surrogate x ∈ (s.objectWith entries).render := by
  obtain ⟨entry, hentry, hwritten⟩ := exists_of_mem_left (mapM_eq_some.mp hentries) he
  obtain ⟨members, rfl, hpath⟩ := SummaryEntry.exists_path_mem hwritten
  have hmem : .surrogate x ∈ (Json.obj members).render :=
    Json.mem_render_obj hpath (Json.surrogate_mem_render_str hx)
  exact Json.mem_render_obj List.mem_cons_self (Json.mem_render_arr hentry hmem)

end SyntaxChunks
