/-
# `Proofs.SeveralLines` — spans that hold more than one line

Trimming leaves a blank exactly if something else stands on either side of it.  A line feed is a
blank, so a span is of several lines exactly if one of its line feeds stands between bytes that are
not blank (`isSingleLine_eq_false_iff`), and it stays so when it grows
(`isSingleLine_eq_false_of_longer`).
-/
import SyntaxChunks.Proofs.Tiles
import SyntaxChunks.SingleLine

namespace SyntaxChunks

/-! ## What trimming leaves -/

/-- A member of `p` is kept by `dropWhile`, with all that is behind it, exactly if something else
stands before it. -/
theorem exists_dropWhile_eq_append_cons_iff {α : Type} {p : α → Bool} {x : α} (hx : p x = true)
    {behind : List α} :
    ∀ {l : List α}, (∃ kept, l.dropWhile p = kept ++ x :: behind) ↔
      ∃ before, l = before ++ x :: behind ∧ ∃ a ∈ before, p a = false
  | [] => by simp
  | c :: l => by
      cases hc : p c with
      | true =>
          rw [List.dropWhile_cons_of_pos hc, exists_dropWhile_eq_append_cons_iff hx]
          constructor
          · rintro ⟨before, rfl, a, ha, hpa⟩
            exact ⟨c :: before, rfl, a, List.mem_cons_of_mem _ ha, hpa⟩
          · rintro ⟨before, heq, a, ha, hpa⟩
            cases before with
            | nil => exact absurd ha List.not_mem_nil
            | cons d before =>
                obtain ⟨rfl, rfl⟩ := List.cons.inj heq
                -- `c` goes, so what else stands before `x` is behind `c`
                have hne : a ≠ c := by
                  rintro rfl
                  rw [hc] at hpa
                  cases hpa
                exact ⟨before, rfl, a, (List.mem_cons.mp ha).resolve_left hne, hpa⟩
      | false =>
          rw [List.dropWhile_cons_of_neg (Bool.eq_false_iff.mp hc)]
          constructor
          · rintro ⟨before, heq⟩
            -- `c` stays, and is not `x`, so it is the first of those before `x`
            refine ⟨before, heq, c, ?_, hc⟩
            cases before with
            | nil =>
                obtain ⟨rfl, -⟩ := List.cons.inj heq
                rw [hx] at hc
                cases hc
            | cons d before =>
                obtain ⟨rfl, -⟩ := List.cons.inj heq
                exact List.mem_cons_self
          · rintro ⟨before, heq, _⟩
            exact ⟨before, heq⟩

/-- A member of `p` is left by trimming exactly if something else stands before it, and behind
it. -/
theorem mem_trimBy_iff {α : Type} {p : α → Bool} {x : α} (hx : p x = true) {l : List α} :
    x ∈ trimBy p l ↔ ∃ before behind, l = before ++ x :: behind ∧
      (∃ a ∈ before, p a = false) ∧ ∃ b ∈ behind, p b = false := by
  rw [trimBy, List.mem_reverse, List.mem_iff_append]
  constructor
  · rintro ⟨kept, front, heq⟩
    -- the second cut is made from the back, so what it keeps is read in reverse
    obtain ⟨back, hback, b, hb, hpb⟩ :=
      (exists_dropWhile_eq_append_cons_iff hx).mp ⟨kept, heq⟩
    have hfront : l.dropWhile p = front.reverse ++ x :: back.reverse := by
      rw [← List.reverse_reverse (l.dropWhile p), hback]
      simp
    obtain ⟨before, rfl, a, ha, hpa⟩ :=
      (exists_dropWhile_eq_append_cons_iff hx).mp ⟨front.reverse, hfront⟩
    exact ⟨before, back.reverse, rfl, ⟨a, ha, hpa⟩, b, List.mem_reverse.mpr hb, hpb⟩
  · rintro ⟨before, behind, rfl, hbefore, b, hb, hpb⟩
    obtain ⟨front, hfront⟩ :=
      (exists_dropWhile_eq_append_cons_iff hx).mpr ⟨before, rfl, hbefore⟩
    have hback : ((before ++ x :: behind).dropWhile p).reverse
        = behind.reverse ++ x :: front.reverse := by
      rw [hfront]
      simp
    obtain ⟨kept, hkept⟩ := (exists_dropWhile_eq_append_cons_iff hx).mpr
      ⟨behind.reverse, hback, b, List.mem_reverse.mpr hb, hpb⟩
    exact ⟨kept, front.reverse, hkept⟩

/-! ## Several lines -/

/-- A line feed stands between bytes that are not blank. -/
def SeveralLines (bytes : List UInt8) : Prop :=
  ∃ before behind, bytes = before ++ newline :: behind ∧
    (∃ a ∈ before, Text.isBlankByte a = false) ∧ ∃ b ∈ behind, Text.isBlankByte b = false

theorem SeveralLines.append {bytes : List UInt8} (h : SeveralLines bytes) (more : List UInt8) :
    SeveralLines (bytes ++ more) := by
  obtain ⟨before, behind, rfl, hbefore, b, hb, hblank⟩ := h
  refine ⟨before, behind ++ more, ?_, hbefore, b, List.mem_append_left _ hb, hblank⟩
  rw [List.append_assoc, List.cons_append]

section

variable {contents : Contents}

theorem isSingleLine_eq_false_iff {s : Span} :
    isSingleLine contents s = false ↔ SeveralLines (contents.slice s.start s.stop).toList := by
  rw [isSingleLine, Bool.not_eq_false', List.contains_iff_mem]
  exact mem_trimBy_iff (by decide)

/-- A span of several lines is one also when it stops later. -/
theorem isSingleLine_eq_false_of_longer {a m b : Int} (ha : 0 ≤ a) (ham : a ≤ m) (hmb : m ≤ b)
    (hb : b ≤ contents.size) (h : isSingleLine contents ⟨a, m⟩ = false) :
    isSingleLine contents ⟨a, b⟩ = false := by
  rw [isSingleLine_eq_false_iff] at h ⊢
  rw [← slice_append_slice ha ham hmb hb]
  exact h.append _

end

end SyntaxChunks
