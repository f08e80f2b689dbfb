/-
# `Proofs.Boundaries` — offsets between two characters

Among the bytes of a text the boundaries are the offsets without a continuation
byte behind them (`isBoundary_iff`).  From each of them to the next there is one
character (`IsBoundary.exists_char`), so no offset is more than three bytes
behind a boundary (`exists_boundary_near`).
-/
import SyntaxChunks.Proofs.Utf8

namespace SyntaxChunks

open Text.Utf8

/-- The offset lies between two characters of the text, or at one of its ends. -/
def IsBoundary (cs : List Char) (i : Int) : Prop :=
  ∃ front back, cs = front ++ back ∧ i = (encode front).length

/-- The character starts at the offset. -/
def CharacterAt (cs : List Char) (i : Int) (c : Char) : Prop :=
  ∃ front back, cs = front ++ c :: back ∧ i = (encode front).length

section

variable {cs : List Char} {i : Int}

theorem CharacterAt.mem {c : Char} (h : CharacterAt cs i c) : c ∈ cs := by
  obtain ⟨front, back, rfl, _⟩ := h
  exact List.mem_append_right front List.mem_cons_self

theorem isBoundary_zero : IsBoundary cs 0 :=
  ⟨[], cs, rfl, rfl⟩

theorem isBoundary_length : IsBoundary cs (encode cs).length :=
  ⟨cs, [], (List.append_nil _).symm, rfl⟩

theorem IsBoundary.bounds (h : IsBoundary cs i) : 0 ≤ i ∧ i ≤ (encode cs).length := by
  obtain ⟨front, back, rfl, rfl⟩ := h
  rw [encode_append, List.length_append]
  omega

theorem IsBoundary.cons (c : Char) (h : IsBoundary cs i) :
    IsBoundary (c :: cs) (c.utf8Size + i) := by
  obtain ⟨front, back, rfl, rfl⟩ := h
  refine ⟨c :: front, back, rfl, ?_⟩
  rw [encode_cons, List.length_append, String.length_utf8EncodeChar]
  omega

/-- Behind a boundary inside the text a character starts, and ends at another boundary. -/
theorem IsBoundary.exists_char (h : IsBoundary cs i) (hlt : i < (encode cs).length) :
    ∃ c, CharacterAt cs i c ∧ (encode cs)[i.toNat]? = (String.utf8EncodeChar c).head? ∧
      IsBoundary cs (i + c.utf8Size) := by
  obtain ⟨front, back, rfl, rfl⟩ := h
  cases back with
  | nil =>
      rw [List.append_nil] at hlt
      omega
  | cons c back =>
      refine ⟨c, ⟨front, back, rfl, rfl⟩, ?_, front ++ [c], back, by simp, ?_⟩
      · obtain ⟨b, bs, heq, _⟩ := utf8EncodeChar_eq_cons c
        rw [Int.toNat_natCast, encode_append, encode_cons, heq,
          List.getElem?_append_right (Nat.le_refl _), Nat.sub_self]
        rfl
      · rw [encode_append, encode_cons, encode_nil, List.append_nil, List.length_append,
          String.length_utf8EncodeChar]
        omega

/-- No offset of the text is more than three bytes behind a boundary. -/
theorem exists_boundary_near :
    ∀ {cs : List Char} {i : Int}, 0 ≤ i → i ≤ (encode cs).length →
      ∃ b, IsBoundary cs b ∧ i - 3 ≤ b ∧ b ≤ i
  | [], i, hlow, hhigh => by
      rw [encode_nil, List.length_nil] at hhigh
      exact ⟨0, isBoundary_zero, by omega, hlow⟩
  | c :: cs, i, hlow, hhigh => by
      rw [encode_cons, List.length_append, String.length_utf8EncodeChar] at hhigh
      have hwidth := c.utf8Size_le_four
      by_cases hin : i < c.utf8Size
      · exact ⟨0, isBoundary_zero, by omega, hlow⟩
      · have hrest : i - c.utf8Size ≤ (encode cs).length := by omega
        obtain ⟨b, hb, hnear, hle⟩ := exists_boundary_near (by omega) hrest
        exact ⟨c.utf8Size + b, hb.cons c, by omega, by omega⟩

/-- Where no continuation byte stands, a character starts. -/
theorem isBoundary_of_not_continuation :
    ∀ {cs : List Char} {k : Nat} {b : UInt8}, (encode cs)[k]? = some b →
      isContinuation b = false → IsBoundary cs k
  | [], k, b, hb, _ => by simp at hb
  | c :: cs, 0, _, _, _ => isBoundary_zero
  | c :: cs, k + 1, b, hb, hstart => by
      obtain ⟨lead, later, heq, _, hlater, _⟩ := utf8EncodeChar_eq_cons c
      have hsize : later.length + 1 = c.utf8Size := by
        rw [← String.length_utf8EncodeChar, heq, List.length_cons]
      rw [encode_cons, heq, List.cons_append, List.getElem?_cons_succ] at hb
      by_cases hin : k < later.length
      · -- inside the first character there are continuation bytes only
        rw [List.getElem?_append_left hin] at hb
        rw [hlater b (List.mem_of_getElem? hb)] at hstart
        cases hstart
      · rw [List.getElem?_append_right (Nat.le_of_not_lt hin)] at hb
        have hrest := (isBoundary_of_not_continuation hb hstart).cons c
        have hk : (c.utf8Size : Int) + (k - later.length : Nat) = (k + 1 : Nat) := by omega
        rwa [hk] at hrest

/-- Boundaries are the offsets without a continuation byte behind them. -/
theorem isBoundary_iff {k : Nat} {b : UInt8} (hb : (encode cs)[k]? = some b) :
    IsBoundary cs k ↔ isContinuation b = false := by
  refine ⟨fun h => ?_, isBoundary_of_not_continuation hb⟩
  have hlt : k < (encode cs).length := (List.getElem?_eq_some_iff.mp hb).1
  obtain ⟨c, _, hhead, _⟩ := h.exists_char (Int.ofNat_lt.mpr hlt)
  obtain ⟨lead, later, heq, hlead, _⟩ := utf8EncodeChar_eq_cons c
  rw [Int.toNat_natCast, hb, heq, List.head?_cons] at hhead
  cases hhead
  exact hlead

/-- The offset behind a line feed is a boundary. -/
theorem isBoundary_of_newline {k : Nat} (hb : (encode cs)[k]? = some newline) :
    IsBoundary cs (k + 1) := by
  have hlt : k < (encode cs).length := (List.getElem?_eq_some_iff.mp hb).1
  have hbefore : IsBoundary cs k := (isBoundary_iff hb).mpr (by decide)
  obtain ⟨c, _, hhead, hbehind⟩ := hbefore.exists_char (Int.ofNat_lt.mpr hlt)
  obtain ⟨lead, later, heq, _, _, hlater⟩ := utf8EncodeChar_eq_cons c
  rw [Int.toNat_natCast, hb, heq, List.head?_cons] at hhead
  cases hhead
  have hsize : c.utf8Size = 1 := by
    rw [← String.length_utf8EncodeChar, heq, hlater (by decide)]
    rfl
  rwa [hsize] at hbehind

end

/-! ## Bytes of a text -/

section

variable {contents : Contents} {cs : List Char}

theorem size_of_toList (hbytes : contents.toList = encode cs) :
    contents.size = (encode cs).length := by
  rw [← hbytes, Array.length_toList]

theorem isBoundary_iff_of_byteAt? (hbytes : contents.toList = encode cs) {i : Int} {b : UInt8}
    (hi : 0 ≤ i) (h : contents.byteAt? i = some b) :
    IsBoundary cs i ↔ isContinuation b = false := by
  rw [Contents.byteAt?, if_pos hi, ← Array.getElem?_toList, hbytes] at h
  rw [← isBoundary_iff h, Int.toNat_of_nonneg hi]

end

end SyntaxChunks
