/-
# `Proofs.Pieces` — hard cuts advance, and keep to the budget

Every cut lies behind the start of its piece and not past the budget
(`nextCut_bounds`), so cutting a span comes to an end at the end of the span:
the guard in `piecesOfSpan` against a cut that does not advance never fails
(`piecesOfSpan_eq`), and the pieces are those of the cuts in turn (`CutRun`).

* `CutRun.tiles`, `CutRun.within` — the pieces tile the span, each within the
  budget.
* `CutRun.cuts` — what each cut hands on, and gives to its piece.
* `splitOversized_inOrder`, `splitOversized_fits` — the same for all spans.
* `ends_splitOversized` — a property of offsets that each cut hands on is one
  of all ends.
* `exists_cutRuns` — spans inside the contents can be cut, whatever the bytes
  are, if the budget has a window; it does if it converts to double precision
  (`exists_cutWindow`).
-/
import SyntaxChunks.Pieces
import SyntaxChunks.Proofs.Except
import SyntaxChunks.Proofs.Lines
import SyntaxChunks.Proofs.Rounding
import SyntaxChunks.Proofs.Tiles

namespace SyntaxChunks

section

variable {contents : Contents} {index : LineIndex} {budget window : Nat}

/-! ## One cut -/

theorem characterStart_bounds {floor offset cut : Int} (hlt : floor < offset)
    (h : characterStart contents floor offset = .ok cut) : floor < cut ∧ cut ≤ offset := by
  fun_induction characterStart contents floor offset with
  | case1 offset hmore hnone => cases h
  | case2 offset hmore b hb hcont ih =>
      have := ih (by omega) h
      omega
  | case3 offset hmore b hb hcont =>
      cases h
      omega
  | case4 offset hend =>
      cases h
      omega

/-- A cut lies behind the start of its piece and not past the budget. -/
theorem nextCut_bounds (hindex : index.Sound) (hbudget : 0 < budget) {start cut : Int}
    (h : nextCut contents index budget window start = .ok cut) :
    start < cut ∧ cut ≤ start + budget := by
  simp only [nextCut] at h
  split at h
  · next lineEnd hfound =>
      obtain ⟨f, hnearest, rfl⟩ := LineIndex.exists_nearest hindex hfound
      have hlow := hnearest.low_le
      have hhigh := hnearest.lt_high
      cases h
      omega
  · exact characterStart_bounds (by omega) h

/-! ## The pieces of one span -/

/-- Cutting a span has no other end than that of the span. -/
theorem piecesOfSpan_eq (hindex : index.Sound) (hbudget : 0 < budget) {start stop : Int} :
    piecesOfSpan contents index budget window start stop =
      if budget < stop - start then do
        let cut ← nextCut contents index budget window start
        return ⟨start, cut⟩ :: (← piecesOfSpan contents index budget window cut stop)
      else .ok [⟨start, stop⟩] := by
  rw [piecesOfSpan]
  split
  · cases hcut : nextCut contents index budget window start with
    | error e => rfl
    | ok cut =>
        have hadvance := (nextCut_bounds hindex hbudget hcut).1
        simp only [bind, Except.bind, if_pos hadvance]
  · rfl

/-- The cuts through a span in turn: as long as more than the budget is left, the next cut is made.
Nothing here makes sure that a cut advances. -/
inductive CutRun (contents : Contents) (index : LineIndex) (budget window : Nat) (stop : Int) :
    Int → List Span → Prop
  | fits {start : Int} : stop - start ≤ budget →
      CutRun contents index budget window stop start [⟨start, stop⟩]
  | cut {start cut : Int} {rest : List Span} : budget < stop - start →
      nextCut contents index budget window start = .ok cut →
      CutRun contents index budget window stop cut rest →
      CutRun contents index budget window stop start (⟨start, cut⟩ :: rest)

/-- Since every cut advances, the pieces of a span are those of the cuts in turn. -/
theorem piecesOfSpan_eq_ok_iff (hindex : index.Sound) (hbudget : 0 < budget) {start stop : Int}
    {pieces : List Span} :
    piecesOfSpan contents index budget window start stop = .ok pieces ↔
      CutRun contents index budget window stop start pieces := by
  constructor
  · intro h
    induction start using piecesOfSpan.induct budget stop generalizing pieces with
    | case1 start hover ih =>
        rw [piecesOfSpan_eq hindex hbudget, if_pos hover] at h
        obtain ⟨cut, hcut, hrest⟩ := bind_eq_ok.mp h
        obtain ⟨rest, hpieces, heq⟩ := bind_eq_ok.mp hrest
        cases heq
        have hadvance : start < cut := (nextCut_bounds hindex hbudget hcut).1
        exact .cut hover hcut (ih cut hadvance hpieces)
    | case2 start hfit =>
        rw [piecesOfSpan_eq hindex hbudget, if_neg hfit] at h
        cases h
        exact .fits (Int.not_lt.mp hfit)
  · intro h
    induction h with
    | fits hfit => rw [piecesOfSpan_eq hindex hbudget, if_neg (Int.not_lt.mpr hfit)]
    | cut hover hcut _ ih =>
        rw [piecesOfSpan_eq hindex hbudget, if_pos hover]
        exact bind_eq_ok.mpr ⟨_, hcut, bind_eq_ok.mpr ⟨_, ih, rfl⟩⟩

section

variable {start stop : Int} {pieces : List Span}

theorem CutRun.ne_nil (h : CutRun contents index budget window stop start pieces) :
    pieces ≠ [] := by
  cases h <;> exact List.cons_ne_nil _ _

theorem CutRun.tiles (hindex : index.Sound) (hbudget : 0 < budget)
    (h : CutRun contents index budget window stop start pieces) (hlt : start < stop) :
    Tiles start stop pieces := by
  induction h with
  | fits _ => exact .single hlt
  | cut hover hcut _ ih =>
      obtain ⟨hadvance, hwithin⟩ := nextCut_bounds hindex hbudget hcut
      exact .cons hadvance (ih (by omega))

theorem CutRun.within (hindex : index.Sound) (hbudget : 0 < budget)
    (h : CutRun contents index budget window stop start pieces) :
    ∀ p ∈ pieces, p.length ≤ budget := by
  induction h with
  | fits hfit =>
      intro p hp
      rw [List.mem_singleton.mp hp]
      exact hfit
  | cut _ hcut _ ih =>
      intro p hp
      rcases List.mem_cons.mp hp with rfl | hp
      · have hwithin := (nextCut_bounds hindex hbudget hcut).2
        simp only [Span.length]
        omega
      · exact ih p hp

/-- What each cut hands on from the start of its piece holds of all ends, and what it gives to its
piece holds of all pieces but the last. -/
theorem CutRun.cuts {P : Int → Prop} {Q : Int → Int → Prop}
    (h : CutRun contents index budget window stop start pieces)
    (hcuts : ∀ i cut, P i → i + budget < stop →
      nextCut contents index budget window i = .ok cut → P cut ∧ Q i cut)
    (hstart : P start) (hstop : P stop) :
    (∀ p ∈ pieces, p.Ends P) ∧ ∀ p ∈ pieces.dropLast, Q p.start p.stop := by
  induction h with
  | fits _ =>
      refine ⟨fun p hp => ?_, fun p hp => absurd hp List.not_mem_nil⟩
      rw [List.mem_singleton.mp hp]
      exact ⟨hstart, hstop⟩
  | @cut start cut rest hover hcut hrest ih =>
      obtain ⟨hP, hQ⟩ := hcuts start cut hstart (by omega) hcut
      obtain ⟨hends, hpieces⟩ := ih hP
      rw [List.dropLast_cons_of_ne_nil hrest.ne_nil]
      exact ⟨List.forall_mem_cons.mpr ⟨⟨hstart, hP⟩, hends⟩,
        List.forall_mem_cons.mpr ⟨hQ, hpieces⟩⟩

end

end

/-! ## The pieces of all spans -/

section

variable {contents : Contents} {index : LineIndex} {budget : Nat} {spans pieces : List Span}

/-- The pieces are those of each span, one span after the other. -/
theorem splitOversized_cases (hindex : index.Sound) (hbudget : 0 < budget)
    (h : splitOversized contents index budget spans = .ok pieces) :
    ∃ window parts, cutWindow budget = .ok window ∧
      List.Forall₂ (fun s part => CutRun contents index budget window s.stop s.start part)
        spans parts ∧ pieces = parts.flatten := by
  obtain ⟨window, hwindow, h⟩ := bind_eq_ok.mp h
  obtain ⟨parts, hparts, h⟩ := bind_eq_ok.mp h
  refine ⟨window, parts, hwindow, (mapM_eq_ok.mp hparts).imp fun s part hpart => ?_,
    (Except.ok.inj h).symm⟩
  exact (piecesOfSpan_eq_ok_iff hindex hbudget).mp hpart

/-- Every piece is one of some span. -/
theorem exists_span_of_mem_pieces (hindex : index.Sound) (hbudget : 0 < budget)
    (h : splitOversized contents index budget spans = .ok pieces) :
    ∀ p ∈ pieces, ∃ s ∈ spans, ∃ window part,
      CutRun contents index budget window s.stop s.start part ∧ p ∈ part := by
  obtain ⟨window, parts, _, hparts, rfl⟩ := splitOversized_cases hindex hbudget h
  intro p hp
  obtain ⟨part, hpart, hmem⟩ := List.mem_flatten.mp hp
  obtain ⟨s, hs, hrun⟩ := exists_of_mem_right hparts hpart
  exact ⟨s, hs, window, part, hrun, hmem⟩

theorem splitOversized_fits (hindex : index.Sound) (hbudget : 0 < budget)
    (h : splitOversized contents index budget spans = .ok pieces) :
    ∀ p ∈ pieces, p.length ≤ budget := by
  intro p hp
  obtain ⟨s, _, window, part, hpart, hp⟩ := exists_span_of_mem_pieces hindex hbudget h p hp
  exact hpart.within hindex hbudget p hp

theorem splitOversized_nonempty (hindex : index.Sound) (hbudget : 0 < budget)
    (h : splitOversized contents index budget spans = .ok pieces)
    (hspans : ∀ s ∈ spans, s.start < s.stop) : ∀ p ∈ pieces, p.start < p.stop := by
  intro p hp
  obtain ⟨s, hs, window, part, hpart, hp⟩ := exists_span_of_mem_pieces hindex hbudget h p hp
  exact (hpart.tiles hindex hbudget (hspans s hs)).nonempty p hp

/-- Every byte of a span lies in one of its pieces. -/
theorem splitOversized_holds (hindex : index.Sound) (hbudget : 0 < budget)
    (h : splitOversized contents index budget spans = .ok pieces) {s : Span} (hs : s ∈ spans)
    {i : Int} (hi : s.Holds i) : ∃ p ∈ pieces, p.Holds i := by
  obtain ⟨window, parts, _, hparts, rfl⟩ := splitOversized_cases hindex hbudget h
  obtain ⟨part, hpart, hrun⟩ := exists_of_mem_left hparts hs
  have htiles := hrun.tiles hindex hbudget (Int.lt_of_le_of_lt hi.1 hi.2)
  obtain ⟨p, hp, hheld⟩ := htiles.exists_holds hi.1 hi.2
  exact ⟨p, List.mem_flatten.mpr ⟨part, hpart, hp⟩, hheld⟩

theorem ends_splitOversized {P : Int → Prop} (hindex : index.Sound) (hbudget : 0 < budget)
    (h : splitOversized contents index budget spans = .ok pieces)
    (hcuts : ∀ s ∈ spans, ∀ window i cut, P i → i + budget < s.stop →
      nextCut contents index budget window i = .ok cut → P cut)
    (hspans : ∀ s ∈ spans, s.Ends P) : ∀ p ∈ pieces, p.Ends P := by
  intro p hp
  obtain ⟨s, hs, window, part, hpart, hp⟩ := exists_span_of_mem_pieces hindex hbudget h p hp
  have hends := hpart.cuts (Q := fun _ _ => True)
    (fun i cut hi hover hcut => ⟨hcuts s hs window i cut hi hover hcut, trivial⟩)
    (hspans s hs).1 (hspans s hs).2
  exact hends.1 p hp

/-- The pieces of non-empty spans in order are in order. -/
theorem splitOversized_inOrder (hindex : index.Sound) (hbudget : 0 < budget) {a b : Int}
    (h : splitOversized contents index budget spans = .ok pieces) (hspans : InOrder a b spans)
    (hne : ∀ s ∈ spans, s.start < s.stop) : InOrder a b pieces := by
  obtain ⟨window, parts, _, hparts, rfl⟩ := splitOversized_cases hindex hbudget h
  clear h
  induction hparts generalizing a with
  | nil => exact hspans
  | @cons s part spans parts hs _ ih =>
      cases hspans with
      | cons hle _ hrest =>
          have hpart := hs.tiles hindex hbudget (hne s List.mem_cons_self)
          exact (hpart.inOrder.weaken hle (Int.le_refl _)).append
            (ih hrest fun t ht => hne t (List.mem_cons_of_mem _ ht))

end

/-! ## Cuts inside the contents -/

section

variable {contents : Contents} {index : LineIndex} {budget window : Nat}

/-- The least number that double precision rounds beyond its range: half a unit
of its 53 bits below `2 ^ 1024`. -/
def budgetLimit : Nat :=
  Nat.pow 2 1024 - Nat.pow 2 (1024 - 53 - 1)

theorem exists_cutWindow (h : budget < budgetLimit) : ∃ window, cutWindow budget = .ok window := by
  unfold budgetLimit at h
  unfold cutWindow
  -- with a name for the exponent no step tries to multiply the power out
  generalize hm : 1024 = m at h ⊢
  have hround : Number.toSignificant 53 budget < Nat.pow 2 m :=
    (Number.toSignificant_lt_iff (by decide) (by omega)).mpr h
  exact ⟨_, if_neg (Nat.not_le.mpr hround)⟩

/-- A budget of at most `2 ^ 53` has a window of a quarter of it. -/
theorem cutWindow_of_le (h : budget ≤ Nat.pow 2 53) :
    cutWindow budget = .ok (max 1 (budget / 4)) := by
  have hexact : Number.toSignificant 53 budget = budget :=
    Number.toSignificant_of_le (by decide) h
  unfold cutWindow
  -- the exponent is named here for the same reason
  generalize hm : 1024 = m
  have hpow : Nat.pow 2 53 < Nat.pow 2 m := Nat.pow_lt_pow_right (by decide) (by omega)
  rw [hexact]
  exact if_neg (by omega)

theorem exists_byteAt? {i : Int} (hlow : 0 ≤ i) (hhigh : i < contents.size) :
    ∃ b, contents.byteAt? i = some b := by
  have hin : i.toNat < contents.size := by omega
  rw [Contents.byteAt?, if_pos hlow]
  exact ⟨_, Array.getElem?_eq_getElem hin⟩

/-- The search back from an offset of a byte meets bytes only. -/
theorem exists_characterStart {floor offset : Int} (hfloor : 0 ≤ floor)
    (hin : offset < contents.size) : ∃ cut, characterStart contents floor offset = .ok cut := by
  fun_induction characterStart contents floor offset with
  | case1 offset hmore hnone =>
      obtain ⟨b, hb⟩ := exists_byteAt? (show 0 ≤ offset by omega) hin
      rw [hnone] at hb
      cases hb
  | case2 offset _ _ _ _ ih => exact ih (by omega)
  | case3 offset _ _ _ _ => exact ⟨offset, rfl⟩
  | case4 offset _ => exact ⟨offset, rfl⟩

theorem exists_nextCut {start : Int} (hstart : 0 ≤ start) (hin : start + budget < contents.size) :
    ∃ cut, nextCut contents index budget window start = .ok cut := by
  simp only [nextCut]
  split
  · exact ⟨_, rfl⟩
  · exact exists_characterStart hstart hin

theorem exists_piecesOfSpan (hindex : index.Sound) (hbudget : 0 < budget) {start stop : Int}
    (hstart : 0 ≤ start) (hstop : stop ≤ contents.size) :
    ∃ pieces, piecesOfSpan contents index budget window start stop = .ok pieces := by
  induction start using piecesOfSpan.induct budget stop with
  | case1 start hover ih =>
      obtain ⟨cut, hcut⟩ : ∃ cut, nextCut contents index budget window start = .ok cut :=
        exists_nextCut hstart (by omega)
      have hadvance := (nextCut_bounds hindex hbudget hcut).1
      obtain ⟨rest, hrest⟩ := ih cut hadvance (by omega)
      rw [piecesOfSpan_eq hindex hbudget, if_pos hover]
      exact ⟨_, bind_eq_ok.mpr ⟨cut, hcut, bind_eq_ok.mpr ⟨rest, hrest, rfl⟩⟩⟩
  | case2 start hfit =>
      rw [piecesOfSpan_eq hindex hbudget, if_neg hfit]
      exact ⟨_, rfl⟩

/-- Under a budget that has a window, spans inside the contents can be cut one after the other. -/
theorem exists_cutRuns (hindex : index.Sound) (hbudget : 0 < budget)
    (hwindow : cutWindow budget = .ok window) {spans : List Span}
    (hspans : ∀ s ∈ spans, 0 ≤ s.start ∧ s.stop ≤ contents.size) :
    ∃ parts, splitOversized contents index budget spans = .ok parts.flatten ∧
      List.Forall₂ (fun s part => CutRun contents index budget window s.stop s.start part)
        spans parts := by
  obtain ⟨parts, hparts⟩ := exists_mapM_eq_ok
    (f := fun s : Span => piecesOfSpan contents index budget window s.start s.stop)
    fun s hs => exists_piecesOfSpan hindex hbudget (hspans s hs).1 (hspans s hs).2
  refine ⟨parts, bind_eq_ok.mpr ⟨window, hwindow, bind_eq_ok.mpr ⟨parts, hparts, rfl⟩⟩, ?_⟩
  exact (mapM_eq_ok.mp hparts).imp fun s part hpart =>
    (piecesOfSpan_eq_ok_iff hindex hbudget).mp hpart

end

end SyntaxChunks
