/-
# `Proofs.DecodedLines` — bytes are decoded line by line

What the machine reads of some bytes depends in general on all bytes before them: a character may be
open, and its end may be cut off.  A line feed is where this stops.  It cannot follow inside a
character, so one that is open ends there as malformed and the machine is idle behind it
(`run_append_newline`), and no other bytes are read as a line feed (`newline_not_mem_run`).

So text has the lines of its bytes, valid or not: `decodeChars_dropLines` says that it makes no
difference whether lines are left out before or after decoding.
-/
import Mathlib.Data.List.TakeWhile
import SyntaxChunks.Proofs.Utf8

namespace SyntaxChunks

/-! ## Leaving lines out -/

section

variable {α : Type} [DecidableEq α] {feed : α} {xs ys : List α}

/-- What stands behind the first line end. -/
def dropLine (feed : α) (l : List α) : List α :=
  (l.dropWhile (· ≠ feed)).tail

/-- What stands behind the first so many line ends. -/
def dropLines (feed : α) : Nat → List α → List α
  | 0, l => l
  | k + 1, l => dropLines feed k (dropLine feed l)

theorem decide_ne_of_not_mem (h : feed ∉ xs) : ∀ x ∈ xs, decide (x ≠ feed) = true :=
  fun _ hx => decide_eq_true fun heq => h (heq ▸ hx)

theorem dropLine_append (h : feed ∉ xs) : dropLine feed (xs ++ feed :: ys) = ys := by
  rw [dropLine, List.dropWhile_append_of_pos (decide_ne_of_not_mem h)]
  simp

theorem dropLine_of_not_mem (h : feed ∉ xs) : dropLine feed xs = [] := by
  rw [dropLine, List.dropWhile_eq_nil_iff.mpr (decide_ne_of_not_mem h)]
  rfl

end

namespace Text.Utf8

/-! ## One byte -/

/-- What is known inside a character: the byte that has to follow is no ASCII byte, and the bits
read so far are enough for a code beyond ASCII. -/
inductive State.Sound : State → Prop
  | idle : State.Sound .idle
  | last {bits : Nat} {low high : UInt8} : 0x80 ≤ low.toNat → 2 ≤ bits →
      State.Sound (.inside 1 bits low high)
  | more {missing bits : Nat} {low high : UInt8} : 0x80 ≤ low.toNat →
      2 ≤ bits * 64 + (low.toNat - 0x80) → State.Sound (.inside (missing + 2) bits low high)

variable {s : State} {b : UInt8} {xs ys : List UInt8}

theorem lead_sound (b : UInt8) : (lead b).1.Sound := by
  unfold lead
  simp only
  split
  · exact .idle
  split
  · exact .idle
  split
  · exact .last (by decide) (by omega)
  split
  · refine .more ?_ ?_
    · split <;> decide
    · split
      · simp
      · omega
  split
  · refine .more ?_ ?_
    · split <;> decide
    · split
      · simp
      · omega
  · exact .idle

/-- Only the code of a line feed gives a line feed. -/
theorem ofNat_ne_newline {n : Nat} (h : n ≠ 10) : some (Char.ofNat n) ≠ some '\n' := by
  intro heq
  have hcode : (Char.ofNat n).toNat = 10 := congrArg Char.toNat (Option.some.inj heq)
  by_cases hvalid : n.isValidChar
  · have hchar : Char.ofNat n = Char.ofNatAux n hvalid := dif_pos hvalid
    rw [hchar] at hcode
    exact h hcode
  · have hchar : Char.ofNat n = Char.ofNat 0 := dif_neg hvalid
    rw [hchar] at hcode
    exact absurd hcode (by decide)

theorem newline_not_mem_lead (hb : b ≠ newline) : some '\n' ∉ (lead b).2 := by
  have hcode : b.toNat ≠ 10 := fun h => hb (UInt8.toNat_inj.mp h)
  unfold lead
  simp only
  split
  · rw [List.mem_singleton]
    exact (ofNat_ne_newline hcode).symm
  split
  · simp
  split
  · exact List.not_mem_nil
  split
  · exact List.not_mem_nil
  split
  · exact List.not_mem_nil
  · simp

theorem step_sound (h : s.Sound) (b : UInt8) : (step s b).1.Sound := by
  cases h with
  | idle => exact lead_sound b
  | @last bits low high _ _ =>
      unfold step
      simp only
      split
      · exact .idle
      · exact lead_sound b
  | @more missing bits low high hlow hbits =>
      have hmissing : ¬ missing + 2 ≤ 1 := by omega
      unfold step
      simp only [if_neg hmissing]
      split
      · next hin =>
          have hb : low.toNat ≤ b.toNat := hin.1
          cases missing with
          | zero => exact .last (by decide) (by omega)
          | succ missing => exact .more (by decide) (by omega)
      · exact lead_sound b

/-- A line feed ends what is open, is read as itself, and leaves the machine idle. -/
theorem step_newline (h : s.Sound) : step s newline = (.idle, s.finish ++ [some '\n']) := by
  have hbelow : ∀ low : UInt8, 0x80 ≤ low.toNat → ¬ low ≤ newline := by
    intro low hlow hle
    have hten : low.toNat ≤ 10 := hle
    omega
  cases h with
  | idle => rfl
  | @last bits low high hlow _ =>
      unfold step
      simp only [hbelow low hlow, false_and, if_false]
      rfl
  | @more missing bits low high hlow _ =>
      unfold step
      simp only [hbelow low hlow, false_and, if_false]
      rfl

/-- No other byte is read as a line feed: inside a character the code is beyond ASCII. -/
theorem newline_not_mem_step (h : s.Sound) (hb : b ≠ newline) : some '\n' ∉ (step s b).2 := by
  have hmalformed : some '\n' ∉ none :: (lead b).2 := by
    simpa using newline_not_mem_lead hb
  cases h with
  | idle => exact newline_not_mem_lead hb
  | @last bits low high hlow hbits =>
      unfold step
      simp only [Nat.le_refl, if_true]
      split
      · rw [List.mem_singleton]
        exact (ofNat_ne_newline (by omega)).symm
      · exact hmalformed
  | @more missing bits low high _ _ =>
      have hmissing : ¬ missing + 2 ≤ 1 := by omega
      unfold step
      simp only [if_neg hmissing]
      split
      · exact List.not_mem_nil
      · exact hmalformed

theorem newline_not_mem_finish (s : State) : some '\n' ∉ s.finish := by
  cases s <;> simp [State.finish]

/-! ## Runs -/

/-- What comes behind a line feed is read as if it stood alone, and so is what comes before. -/
theorem run_append_newline (h : s.Sound) (xs ys : List UInt8) :
    run s (xs ++ newline :: ys) = run s xs ++ some '\n' :: run .idle ys := by
  induction xs generalizing s with
  | nil =>
      show (step s newline).2 ++ run (step s newline).1 ys = s.finish ++ some '\n' :: run .idle ys
      rw [step_newline h, List.append_assoc]
      rfl
  | cons b xs ih =>
      rw [List.cons_append, run, run, ih (step_sound h b), List.append_assoc]

theorem newline_not_mem_run (h : s.Sound) (hx : newline ∉ xs) : some '\n' ∉ run s xs := by
  induction xs generalizing s with
  | nil => exact newline_not_mem_finish s
  | cons b xs ih =>
      rw [List.mem_cons, not_or] at hx
      rw [run, List.mem_append, not_or]
      exact ⟨newline_not_mem_step h (Ne.symm hx.1), ih (step_sound h b) hx.2⟩

/-! ## Lines -/

theorem decodeChars_append_newline (xs ys : List UInt8) :
    decodeChars (xs ++ newline :: ys) = decodeChars xs ++ '\n' :: decodeChars ys := by
  rw [decodeChars, run_append_newline .idle, List.map_append, List.map_cons]
  rfl

theorem newline_not_mem_decodeChars (hx : newline ∉ xs) : '\n' ∉ decodeChars xs := by
  intro hmem
  obtain ⟨c, hc, heq⟩ := List.mem_map.mp hmem
  cases c with
  | none => exact absurd heq (by decide)
  | some c =>
      have hfeed : c = '\n' := heq
      exact newline_not_mem_run .idle hx (hfeed ▸ hc)

/-- The text has its lines where the bytes have them. -/
theorem decodeChars_dropLine (bytes : List UInt8) :
    decodeChars (dropLine newline bytes) = dropLine '\n' (decodeChars bytes) := by
  by_cases hfeed : newline ∈ bytes
  · obtain ⟨xs, ys, rfl, hxs⟩ := List.eq_append_cons_of_mem hfeed
    rw [dropLine_append hxs, decodeChars_append_newline,
      dropLine_append (newline_not_mem_decodeChars hxs)]
  · rw [dropLine_of_not_mem hfeed, dropLine_of_not_mem (newline_not_mem_decodeChars hfeed)]
    rfl

theorem decodeChars_dropLines (k : Nat) (bytes : List UInt8) :
    decodeChars (dropLines newline k bytes) = dropLines '\n' k (decodeChars bytes) := by
  induction k generalizing bytes with
  | zero => rfl
  | succ k ih => rw [dropLines, dropLines, ih, decodeChars_dropLine]

end Text.Utf8

end SyntaxChunks
