/-
# `Proofs.Utf8` — texts are read back from their bytes

`run_encode` says that the machine, idle before the bytes of a text, reads the
characters of the text and is idle again behind them; no part is malformed.
-/
import SyntaxChunks.Text.Utf8

namespace SyntaxChunks.Text.Utf8

/-- The bytes of characters, one after the other. -/
def encode (cs : List Char) : List UInt8 :=
  cs.flatMap String.utf8EncodeChar

@[simp] theorem encode_nil : encode [] = [] := rfl

@[simp] theorem encode_cons (c : Char) (cs : List Char) :
    encode (c :: cs) = String.utf8EncodeChar c ++ encode cs :=
  List.flatMap_cons

@[simp] theorem encode_append (cs ds : List Char) : encode (cs ++ ds) = encode cs ++ encode ds :=
  List.flatMap_append

theorem toList_ofText (text : String) : (Contents.ofText text).toList = encode text.toList := by
  rw [Contents.ofText, String.toUTF8_eq_toByteArray, ← String.utf8Encode_toList]
  simp [List.utf8Encode, encode]

/-! ## The bytes of one character -/

theorem isContinuation_iff {b : UInt8} :
    isContinuation b = true ↔ 0x80 ≤ b.toNat ∧ b.toNat < 0xC0 := by
  have hall : ∀ n : Fin 256, isContinuation (.ofNat n) = true ↔ 0x80 ≤ n.val ∧ n.val < 0xC0 := by
    decide +kernel
  have hb := hall ⟨b.toNat, b.toNat_lt⟩
  rwa [UInt8.ofNat_toNat] at hb

/-- The bytes of a character carry its code, the first one by itself or with
the length of the character, each other one with six bits of the rest. -/
theorem utf8EncodeChar_cases (c : Char) :
    (∃ b, String.utf8EncodeChar c = [b] ∧ b.toNat = c.toNat ∧ c.toNat < 0x80) ∨
    (∃ b b₁, String.utf8EncodeChar c = [b, b₁] ∧ b.toNat = 0xC0 + c.toNat / 64 ∧
      b₁.toNat = 0x80 + c.toNat % 64 ∧ 0x80 ≤ c.toNat ∧ c.toNat < 0x800) ∨
    (∃ b b₁ b₂, String.utf8EncodeChar c = [b, b₁, b₂] ∧ b.toNat = 0xE0 + c.toNat / 4096 ∧
      b₁.toNat = 0x80 + c.toNat / 64 % 64 ∧ b₂.toNat = 0x80 + c.toNat % 64 ∧
      0x800 ≤ c.toNat ∧ c.toNat < 0x10000) ∨
    (∃ b b₁ b₂ b₃, String.utf8EncodeChar c = [b, b₁, b₂, b₃] ∧
      b.toNat = 0xF0 + c.toNat / 262144 ∧ b₁.toNat = 0x80 + c.toNat / 4096 % 64 ∧
      b₂.toNat = 0x80 + c.toNat / 64 % 64 ∧ b₃.toNat = 0x80 + c.toNat % 64 ∧
      0x10000 ≤ c.toNat) := by
  have hvalid : c.toNat < 0xD800 ∨ 0xDFFF < c.toNat ∧ c.toNat < 0x110000 := c.valid
  have hcode : c.val.toNat = c.toNat := rfl
  fun_cases String.utf8EncodeChar c with
  | case1 v h =>
      refine .inl ⟨_, rfl, ?_, by omega⟩
      rw [UInt8.toNat_ofNat']
      omega
  | case2 v h₁ h₂ =>
      refine .inr (.inl ⟨_, _, rfl, ?_, ?_, by omega, by omega⟩) <;>
      · rw [UInt8.toNat_ofNat']
        omega
  | case3 v h₁ h₂ h₃ =>
      refine .inr (.inr (.inl ⟨_, _, _, rfl, ?_, ?_, ?_, by omega, by omega⟩)) <;>
      · rw [UInt8.toNat_ofNat']
        omega
  | case4 v h₁ h₂ h₃ =>
      refine .inr (.inr (.inr ⟨_, _, _, _, rfl, ?_, ?_, ?_, ?_, by omega⟩)) <;>
      · rw [UInt8.toNat_ofNat']
        omega

/-- The first byte of a character is no continuation byte, and the others are. -/
theorem utf8EncodeChar_eq_cons (c : Char) :
    ∃ b bs, String.utf8EncodeChar c = b :: bs ∧ isContinuation b = false ∧
      (∀ x ∈ bs, isContinuation x = true) ∧ (b.toNat < 0x80 → bs = []) := by
  have hvalid : c.toNat < 0xD800 ∨ 0xDFFF < c.toNat ∧ c.toNat < 0x110000 := c.valid
  simp only [← Bool.not_eq_true, isContinuation_iff]
  rcases utf8EncodeChar_cases c with ⟨b, heq, hb, hc⟩ | ⟨b, b₁, heq, hb, h₁, hc⟩ |
    ⟨b, b₁, b₂, heq, hb, h₁, h₂, hc⟩ | ⟨b, b₁, b₂, b₃, heq, hb, h₁, h₂, h₃, hc⟩
  · exact ⟨b, [], heq, by omega, by simp, fun _ => rfl⟩
  · refine ⟨b, [b₁], heq, by omega, ?_, by omega⟩
    simp only [List.mem_singleton, forall_eq]
    omega
  · refine ⟨b, [b₁, b₂], heq, by omega, ?_, by omega⟩
    simp only [List.mem_cons, List.not_mem_nil, or_false, forall_eq_or_imp, forall_eq]
    omega
  · refine ⟨b, [b₁, b₂, b₃], heq, by omega, ?_, by omega⟩
    simp only [List.mem_cons, List.not_mem_nil, or_false, forall_eq_or_imp, forall_eq]
    omega

/-! ## Reading one character -/

theorem run_of_lead {s : State} {b : UInt8} {bs : List UInt8} (h : lead b = (s, [])) :
    run .idle (b :: bs) = run s bs := by
  simp only [run, step, h, List.nil_append]

theorem run_of_ascii {b : UInt8} {bs : List UInt8} (h : b.toNat < 0x80) :
    run .idle (b :: bs) = some (Char.ofNat b.toNat) :: run .idle bs := by
  simp only [run, step, lead, if_pos h, List.singleton_append]

theorem lead_two {b : UInt8} (hlow : 0xC2 ≤ b.toNat) (hhigh : b.toNat < 0xE0) :
    lead b = (.inside 1 (b.toNat - 0xC0) 0x80 0xBF, []) := by
  have h₁ : ¬ b.toNat < 0x80 := by omega
  have h₂ : ¬ b.toNat < 0xC2 := by omega
  simp only [lead, if_neg h₁, if_neg h₂, if_pos hhigh]

theorem lead_three {b : UInt8} (hlow : 0xE0 ≤ b.toNat) (hhigh : b.toNat < 0xF0) :
    lead b = (.inside 2 (b.toNat - 0xE0) (if b.toNat = 0xE0 then 0xA0 else 0x80)
      (if b.toNat = 0xED then 0x9F else 0xBF), []) := by
  have h₁ : ¬ b.toNat < 0x80 := by omega
  have h₂ : ¬ b.toNat < 0xC2 := by omega
  have h₃ : ¬ b.toNat < 0xE0 := by omega
  simp only [lead, if_neg h₁, if_neg h₂, if_neg h₃, if_pos hhigh]

theorem lead_four {b : UInt8} (hlow : 0xF0 ≤ b.toNat) (hhigh : b.toNat < 0xF5) :
    lead b = (.inside 3 (b.toNat - 0xF0) (if b.toNat = 0xF0 then 0x90 else 0x80)
      (if b.toNat = 0xF4 then 0x8F else 0xBF), []) := by
  have h₁ : ¬ b.toNat < 0x80 := by omega
  have h₂ : ¬ b.toNat < 0xC2 := by omega
  have h₃ : ¬ b.toNat < 0xE0 := by omega
  have h₄ : ¬ b.toNat < 0xF0 := by omega
  simp only [lead, if_neg h₁, if_neg h₂, if_neg h₃, if_neg h₄, if_pos hhigh]

theorem run_of_last {bits : Nat} {b : UInt8} {bs : List UInt8} (hlow : 0x80 ≤ b.toNat)
    (hhigh : b.toNat < 0xC0) :
    run (.inside 1 bits 0x80 0xBF) (b :: bs)
      = some (Char.ofNat (bits * 64 + (b.toNat - 0x80))) :: run .idle bs := by
  have hin : 0x80 ≤ b ∧ b ≤ 0xBF := ⟨hlow, Nat.le_of_lt_succ hhigh⟩
  simp only [run, step, if_pos hin, Nat.le_refl, if_true, List.singleton_append]

theorem run_of_more {missing bits : Nat} {low high b : UInt8} {bs : List UInt8}
    (hlow : low.toNat ≤ b.toNat) (hhigh : b.toNat ≤ high.toNat) :
    run (.inside (missing + 2) bits low high) (b :: bs)
      = run (.inside (missing + 1) (bits * 64 + (b.toNat - 0x80)) 0x80 0xBF) bs := by
  have hin : low ≤ b ∧ b ≤ high := ⟨hlow, hhigh⟩
  have hmissing : ¬ missing + 2 ≤ 1 := by omega
  simp only [run, step, if_pos hin, if_neg hmissing, List.nil_append]
  rfl

/-- The bytes of a character are read as that character. -/
theorem run_utf8EncodeChar (c : Char) (bs : List UInt8) :
    run .idle (String.utf8EncodeChar c ++ bs) = some c :: run .idle bs := by
  have hvalid : c.toNat < 0xD800 ∨ 0xDFFF < c.toNat ∧ c.toNat < 0x110000 := c.valid
  have hchar : ∀ n, n = c.toNat → some (Char.ofNat n) = some c := by
    rintro _ rfl
    rw [Char.ofNat_toNat]
  rcases utf8EncodeChar_cases c with ⟨b, heq, hb, hc⟩ | ⟨b, b₁, heq, hb, h₁, hc⟩ |
    ⟨b, b₁, b₂, heq, hb, h₁, h₂, hc⟩ | ⟨b, b₁, b₂, b₃, heq, hb, h₁, h₂, h₃, hc⟩
  · rw [heq, List.singleton_append, run_of_ascii (by omega), hchar _ hb]
  · rw [heq, List.cons_append, List.singleton_append, run_of_lead (lead_two (by omega) (by omega)),
      run_of_last (by omega) (by omega), hchar _ (by omega)]
  · rw [heq, List.cons_append, List.cons_append, List.singleton_append,
      run_of_lead (lead_three (by omega) (by omega)), run_of_more ?_ ?_,
      run_of_last (by omega) (by omega), hchar _ (by omega)]
    -- the first continuation byte keeps overlong forms and surrogates out
    all_goals
      split <;>
      · simp only [UInt8.reduceToNat]
        omega
  · have hlow : (0x80 : UInt8).toNat ≤ b₂.toNat := by
      simp only [UInt8.reduceToNat]
      omega
    have hhigh : b₂.toNat ≤ (0xBF : UInt8).toNat := by
      simp only [UInt8.reduceToNat]
      omega
    rw [heq, List.cons_append, List.cons_append, List.cons_append, List.singleton_append,
      run_of_lead (lead_four (by omega) (by omega)), run_of_more ?_ ?_,
      run_of_more hlow hhigh, run_of_last (by omega) (by omega), hchar _ (by omega)]
    -- here it also keeps codes out that are too large
    all_goals
      split <;>
      · simp only [UInt8.reduceToNat]
        omega

/-! ## Reading a text -/

/-- The machine reads the characters of a text, and then the rest. -/
theorem run_encode (cs : List Char) (bs : List UInt8) :
    run .idle (encode cs ++ bs) = cs.map some ++ run .idle bs := by
  induction cs with
  | nil => rfl
  | cons c cs ih =>
      rw [encode_cons, List.append_assoc, run_utf8EncodeChar, ih]
      rfl

theorem decodeChars_encode (cs : List Char) : decodeChars (encode cs) = cs := by
  have hrun := run_encode cs []
  rw [List.append_nil] at hrun
  have hmarks : (fun c : Option Char => c.getD replacement) ∘ some = id := rfl
  rw [decodeChars, hrun, run, State.finish, List.append_nil, List.map_map, hmarks, List.map_id]

end SyntaxChunks.Text.Utf8
