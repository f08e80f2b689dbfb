/-
# `Proofs.Texts` — texts of characters, and those with a surrogate

The text of a string holds characters only.  A text has a UTF-8 form exactly if
it holds no surrogate (`utf8?_eq_none_iff`).
-/
import SyntaxChunks.Proofs.Except
import SyntaxChunks.Text.CodePoint

namespace SyntaxChunks

namespace CodePoint

theorem char?_eq_none_iff {c : CodePoint} : c.char? = none ↔ ∃ s, c = .surrogate s := by
  cases c <;> simp [char?]

end CodePoint

namespace Text

variable {t : Text}

theorem char_mem_ofString {a : Char} {s : String} : .char a ∈ ofString s ↔ a ∈ s.toList :=
  List.mem_map_of_injective fun _ _ => CodePoint.char.inj

theorem surrogate_not_mem_ofString (x : Surrogate) (s : String) : .surrogate x ∉ ofString s := by
  intro h
  obtain ⟨_, _, hchar⟩ := List.mem_map.mp h
  cases hchar

/-- Exactly a text with a surrogate has no UTF-8 form. -/
theorem utf8?_eq_none_iff : t.utf8? = none ↔ ∃ x, .surrogate x ∈ t := by
  rw [utf8?, Option.map_eq_none_iff, chars?, mapM_eq_none]
  simp only [CodePoint.char?_eq_none_iff]
  constructor
  · rintro ⟨_, hmem, x, rfl⟩
    exact ⟨x, hmem⟩
  · rintro ⟨x, hmem⟩
    exact ⟨_, hmem, x, rfl⟩

end Text

end SyntaxChunks
