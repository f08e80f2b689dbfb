/-
# `Proofs.Joining` — what joining single lines does to a tiling

`joinSingleLines` runs once over the spans and carries the single-line span
that still waits for a neighbour.  `joinForward_spec` says what the run keeps:
the spans behind it and the waiting one tile what they tiled before, and a
property that survives each single joining holds of all of them.

* `joinSingleLines_tiles` — a tiling stays a tiling.
* `ends_joinSingleLines` — with no other ends than before.
* `joinSingleLines_around` — every span is one of the given ones, behind a
  single-line head, and at the very end also before a single-line tail.
-/
import SyntaxChunks.Proofs.Tiles
import SyntaxChunks.SingleLine

namespace SyntaxChunks

/-- The span together with the one that waits for it. -/
def Span.after (waiting : Option Span) (s : Span) : Span :=
  ⟨(waiting.map Span.start).getD s.start, s.stop⟩

@[simp] theorem Span.after_some (w s : Span) : s.after (some w) = ⟨w.start, s.stop⟩ := rfl

section

variable {contents : Contents}

/-! ## One step -/

theorem joinForward_cons_single {waiting : Option Span} {s : Span} {rest : List Span}
    (hs : s.start < s.stop) (hsingle : isSingleLine contents (s.after waiting) = true) :
    joinForward contents waiting (s :: rest)
      = joinForward contents (some (s.after waiting)) rest := by
  have hne : s.isEmpty = false := Span.isEmpty_eq_false_iff.mpr hs
  unfold Span.after at hsingle
  simp only [joinForward, hne, Bool.false_eq_true, if_false, if_pos hsingle, Span.after]

theorem joinForward_cons_several {waiting : Option Span} {s : Span} {rest : List Span}
    (hs : s.start < s.stop) (hseveral : isSingleLine contents (s.after waiting) = false) :
    joinForward contents waiting (s :: rest)
      = (s.after waiting :: (joinForward contents none rest).1,
          (joinForward contents none rest).2) := by
  have hne : s.isEmpty = false := Span.isEmpty_eq_false_iff.mpr hs
  unfold Span.after at hseveral
  simp only [joinForward, hne, hseveral, Bool.false_eq_true, if_false, Span.after]

/-- A tiling whose first span waits is one in which it is joined to the next. -/
theorem Tiles.after {a b : Int} {waiting : Option Span} {s : Span} {rest : List Span}
    (h : Tiles a b (waiting.toList ++ s :: rest)) :
    Tiles a b (s.after waiting :: rest) ∧ (∀ w ∈ waiting, w.stop = s.start) ∧
      s.start < s.stop := by
  cases waiting with
  | none =>
      obtain ⟨rfl, hlt, hrest⟩ := Tiles.cons_iff.mp h
      exact ⟨h, fun _ hw => absurd hw (Option.not_mem_none _), hlt⟩
  | some w =>
      obtain ⟨rfl, hw, htail⟩ := Tiles.cons_iff.mp h
      obtain ⟨hs, hlt, hrest⟩ := Tiles.cons_iff.mp htail
      refine ⟨.cons (by omega) hrest, fun x hx => ?_, by omega⟩
      cases hx
      exact hs.symm

/-! ## The run -/

/-- What the run from left to right keeps.  `Q` is a property that a span has
when it is joined to a waiting single line that has it. -/
theorem joinForward_spec {Q : Span → Prop} {b : Int} :
    ∀ {a : Int} (waiting : Option Span) {spans : List Span},
      Tiles a b (waiting.toList ++ spans) →
      (∀ w ∈ waiting, isSingleLine contents w = true ∧ Q w) →
      (∀ (w : Option Span), ∀ s ∈ spans,
        (∀ x ∈ w, isSingleLine contents x = true ∧ Q x ∧ x.stop = s.start) → Q (s.after w)) →
      Tiles a b ((joinForward contents waiting spans).1
          ++ (joinForward contents waiting spans).2.toList) ∧
        (∀ s ∈ (joinForward contents waiting spans).1
          ++ (joinForward contents waiting spans).2.toList, Q s) ∧
        ∀ w ∈ (joinForward contents waiting spans).2, isSingleLine contents w = true
  | _, waiting, [], h, hwait, _ => by
      rw [List.append_nil] at h
      simp only [joinForward, List.nil_append, Option.mem_toList]
      exact ⟨h, fun w hw => (hwait w hw).2, fun w hw => (hwait w hw).1⟩
  | _, waiting, s :: rest, h, hwait, hstep => by
      obtain ⟨hjoined, hmeet, hs⟩ := h.after
      have hQ : Q (s.after waiting) := hstep waiting s List.mem_cons_self fun x hx =>
        ⟨(hwait x hx).1, (hwait x hx).2, hmeet x hx⟩
      have hrest : ∀ (w : Option Span), ∀ t ∈ rest,
          (∀ x ∈ w, isSingleLine contents x = true ∧ Q x ∧ x.stop = t.start) → Q (t.after w) :=
        fun w t ht => hstep w t (List.mem_cons_of_mem _ ht)
      cases hsingle : isSingleLine contents (s.after waiting) with
      | true =>
          rw [joinForward_cons_single hs hsingle]
          refine joinForward_spec (some (s.after waiting)) hjoined (fun w hw => ?_) hrest
          cases hw
          exact ⟨hsingle, hQ⟩
      | false =>
          rw [joinForward_cons_several hs hsingle]
          obtain ⟨hstart, hlt, htail⟩ := Tiles.cons_iff.mp hjoined
          obtain ⟨ht, hq, hw⟩ := joinForward_spec none htail
            (fun _ hw => absurd hw (Option.not_mem_none _)) hrest
          refine ⟨?_, fun t ht => ?_, hw⟩
          · exact Tiles.cons_iff.mpr ⟨hstart, hlt, ht⟩
          · rcases List.mem_cons.mp ht with rfl | ht
            · exact hQ
            · exact hq t ht

/-! ## The end of the run -/

theorem stretchLast_tiles {b : Int} :
    ∀ {a m : Int} {s : Span} {rest : List Span}, Tiles a m (s :: rest) → m < b →
      Tiles a b (stretchLast b (s :: rest))
  | a, m, s, [], h, hb => by
      obtain ⟨rfl, hlt, hnil⟩ := Tiles.cons_iff.mp h
      have heq := hnil.eq_of_nil
      exact .single (by omega)
  | a, m, s, t :: rest, h, hb => by
      obtain ⟨rfl, hlt, hrest⟩ := Tiles.cons_iff.mp h
      exact .cons hlt (stretchLast_tiles hrest hb)

/-- Of the spans with a stretched last one, the last alone is new. -/
theorem mem_stretchLast {b : Int} :
    ∀ {a m : Int} {spans : List Span}, Tiles a m spans → ∀ s ∈ stretchLast b spans,
      s ∈ spans ∨ ∃ t ∈ spans, t.start = s.start ∧ t.stop = m ∧ s.stop = b
  | _, _, [], _, _, hs => absurd hs List.not_mem_nil
  | a, m, [t], h, s, hs => by
      obtain ⟨_, _, hnil⟩ := Tiles.cons_iff.mp h
      rw [stretchLast, List.mem_singleton] at hs
      subst hs
      exact .inr ⟨t, List.mem_cons_self, rfl, hnil.eq_of_nil, rfl⟩
  | a, m, t :: u :: rest, h, s, hs => by
      obtain ⟨_, _, hrest⟩ := Tiles.cons_iff.mp h
      rcases List.mem_cons.mp (show s ∈ t :: stretchLast b (u :: rest) from hs) with rfl | hs
      · exact .inl List.mem_cons_self
      · rcases mem_stretchLast hrest s hs with hs | ⟨v, hv, hends⟩
        · exact .inl (List.mem_cons_of_mem _ hs)
        · exact .inr ⟨v, List.mem_cons_of_mem _ hv, hends⟩

/-- What joining keeps of a tiling.  A span of the result has `Q`, or it is the
last one and came of a span with `Q` by taking in a single line at the end. -/
theorem joinSingleLines_spec {Q : Span → Prop} {a b : Int} {spans : List Span}
    (h : Tiles a b spans)
    (hstep : ∀ (w : Option Span), ∀ s ∈ spans,
      (∀ x ∈ w, isSingleLine contents x = true ∧ Q x ∧ x.stop = s.start) → Q (s.after w)) :
    Tiles a b (joinSingleLines contents spans) ∧
      ∀ s ∈ joinSingleLines contents spans, Q s ∨
        ∃ t, Q t ∧ t.start = s.start ∧ t.stop < b ∧ s.stop = b ∧
          isSingleLine contents ⟨t.stop, b⟩ = true := by
  obtain ⟨ht, hq, hw⟩ :=
    joinForward_spec none h (fun _ hw => absurd hw (Option.not_mem_none _)) hstep
  unfold joinSingleLines
  generalize joinForward contents none spans = run at ht hq hw
  obtain ⟨joined, last⟩ := run
  match joined, last with
  | joined, none =>
      simp only [Option.toList_none, List.append_nil] at ht hq
      exact ⟨ht, fun s hs => .inl (hq s hs)⟩
  | [], some last => exact ⟨ht, fun s hs => .inl (hq s hs)⟩
  | s :: rest, some last =>
      obtain ⟨m, hjoined, hlast⟩ := ht.append_inv
      obtain ⟨hstart, hlt, hnil⟩ := Tiles.cons_iff.mp hlast
      have hstop : last.stop = b := hnil.eq_of_nil
      have hsingle : isSingleLine contents ⟨m, b⟩ = true := by
        rw [← hstart, ← hstop]
        exact hw last rfl
      simp only [hstop]
      refine ⟨stretchLast_tiles hjoined (by omega), fun t ht => ?_⟩
      rcases mem_stretchLast hjoined t ht with ht | ⟨u, hu, hus, hum, htb⟩
      · exact .inl (hq t (List.mem_append_left _ ht))
      · refine .inr ⟨u, hq u (List.mem_append_left _ hu), hus, by omega, htb, ?_⟩
        rw [hum]
        exact hsingle

/-! ## What follows -/

theorem joinSingleLines_tiles {a b : Int} {spans : List Span} (h : Tiles a b spans) :
    Tiles a b (joinSingleLines contents spans) :=
  (joinSingleLines_spec (Q := fun _ => True) h fun _ _ _ _ => trivial).1

/-- Joining makes no new ends. -/
theorem ends_joinSingleLines {P : Int → Prop} {a b : Int} {spans : List Span}
    (h : Tiles a b spans) (hb : P b) (hspans : ∀ s ∈ spans, s.Ends P) :
    ∀ s ∈ joinSingleLines contents spans, s.Ends P := by
  have hstep : ∀ (w : Option Span), ∀ s ∈ spans,
      (∀ x ∈ w, isSingleLine contents x = true ∧ x.Ends P ∧ x.stop = s.start) →
      (s.after w).Ends P := by
    intro w s hs hw
    cases w with
    | none => exact hspans s hs
    | some x => exact ⟨(hw x rfl).2.1.1, (hspans s hs).2⟩
  intro s hs
  rcases (joinSingleLines_spec h hstep).2 s hs with hends | ⟨t, hends, hstart, _, hstop, _⟩
  · exact hends
  · exact ⟨hstart ▸ hends.1, hstop ▸ hb⟩

/-- The bytes from `i` to `j` are none, or lie on a single line. -/
def IsLine (contents : Contents) (i j : Int) : Prop :=
  i = j ∨ isSingleLine contents ⟨i, j⟩ = true

/-- Around one of the given spans, joining puts at most a single line before
it, and at the very end another one behind it. -/
theorem joinSingleLines_around {a b : Int} {spans : List Span} (h : Tiles a b spans) :
    ∀ s ∈ joinSingleLines contents spans, ∃ t ∈ spans,
      s.start ≤ t.start ∧ t.stop ≤ s.stop ∧ IsLine contents s.start t.start ∧
        IsLine contents t.stop s.stop ∧ (t.stop = s.stop ∨ s.stop = b) := by
  have hstep : ∀ (w : Option Span), ∀ s ∈ spans,
      (∀ x ∈ w, isSingleLine contents x = true ∧
        (∃ t ∈ spans, x.start ≤ t.start ∧ t.stop = x.stop ∧ IsLine contents x.start t.start) ∧
        x.stop = s.start) →
      ∃ t ∈ spans, (s.after w).start ≤ t.start ∧ t.stop = (s.after w).stop ∧
        IsLine contents (s.after w).start t.start := by
    intro w s hs hw
    refine ⟨s, hs, ?_⟩
    cases w with
    | none => exact ⟨Int.le_refl _, rfl, .inl rfl⟩
    | some x =>
        obtain ⟨hsingle, ⟨t, ht, hle, hstop, _⟩, hmeet⟩ := hw x rfl
        have hne := h.nonempty t ht
        refine ⟨?_, rfl, .inr ?_⟩
        · simp only [Span.after_some]
          omega
        · rw [Span.after_some, ← hmeet]
          exact hsingle
  intro s hs
  rcases (joinSingleLines_spec h hstep).2 s hs with
    ⟨t, ht, hle, hstop, hline⟩ | ⟨u, ⟨t, ht, hle, hstop, hline⟩, hus, hub, hsb, hsingle⟩
  · exact ⟨t, ht, hle, by omega, hline, .inl hstop, .inl hstop⟩
  · refine ⟨t, ht, by omega, by omega, hus ▸ hline, .inr ?_, .inr hsb⟩
    rw [hstop, hsb]
    exact hsingle

end

end SyntaxChunks
