/-
# `Proofs.LeftmostJoin` — joining in one pass, and joining pair by pair

The plain way to join single lines is to look for the leftmost of them, to put it and the span
behind it into one, and to look again, until none is left or one span stands alone; a single line at
the very end is put together with the span before it.  `JoinStep` is one such joining, and `Joined`
a run of them to the end.

`joinSingleLines` does not look again: it carries the span that waits.  That span is the leftmost
single line, since all spans written before it are of several lines.  Only the last joining touches
one of those, and a span of several lines stays one when it grows
(`isSingleLine_eq_false_of_longer`).  So the pass ends where the joinings do
(`joinSingleLines_leftmost_first`).
-/
import Mathlib.Logic.Relation
import SyntaxChunks.Proofs.Joining
import SyntaxChunks.Proofs.SeveralLines

namespace SyntaxChunks

section

variable {contents : Contents} {spans next result : List Span} {a b : Int}

/-! ## One joining -/

/-- The leftmost single-line span and the span behind it are put into one, or, if it is the last
one, the span before it and it. -/
inductive JoinStep (contents : Contents) : List Span → List Span → Prop
  | next {before behind : List Span} {s t : Span} :
      (∀ r ∈ before, isSingleLine contents r = false) → isSingleLine contents s = true →
      JoinStep contents (before ++ s :: t :: behind) (before ++ ⟨s.start, t.stop⟩ :: behind)
  | last {before : List Span} {s t : Span} :
      (∀ r ∈ before ++ [s], isSingleLine contents r = false) → isSingleLine contents t = true →
      JoinStep contents (before ++ [s, t]) (before ++ [⟨s.start, t.stop⟩])

/-- Whichever it is, two neighbours are put into one. -/
theorem JoinStep.exists_pair (h : JoinStep contents spans next) :
    ∃ before s t behind, spans = before ++ s :: t :: behind ∧
      next = before ++ ⟨s.start, t.stop⟩ :: behind := by
  cases h with
  | @next before behind s t => exact ⟨before, s, t, behind, rfl, rfl⟩
  | @last before s t => exact ⟨before, s, t, [], rfl, rfl⟩

/-- There is but one leftmost single-line span. -/
theorem leftmost_unique :
    ∀ {before before' behind behind' : List Span} {s s' : Span},
      before ++ s :: behind = before' ++ s' :: behind' →
      (∀ r ∈ before, isSingleLine contents r = false) → isSingleLine contents s = true →
      (∀ r ∈ before', isSingleLine contents r = false) → isSingleLine contents s' = true →
      before = before' ∧ s = s' ∧ behind = behind'
  | [], [], _, _, _, _, heq, _, _, _, _ => ⟨rfl, List.cons.inj heq⟩
  | [], r :: _, _, _, s, _, heq, _, hs, hbefore', _ => by
      have hr := hbefore' r List.mem_cons_self
      rw [← (List.cons.inj heq).1, hs] at hr
      cases hr
  | r :: _, [], _, _, _, s', heq, hbefore, _, _, hs' => by
      have hr := hbefore r List.mem_cons_self
      rw [(List.cons.inj heq).1, hs'] at hr
      cases hr
  | r :: before, r' :: before', _, _, _, _, heq, hbefore, hs, hbefore', hs' => by
      obtain ⟨rfl, htail⟩ := List.cons.inj heq
      obtain ⟨rfl, hss, hbehind⟩ := leftmost_unique htail
        (fun x hx => hbefore x (List.mem_cons_of_mem _ hx)) hs
        (fun x hx => hbefore' x (List.mem_cons_of_mem _ hx)) hs'
      exact ⟨rfl, hss, hbehind⟩

/-- What a joining does, by what is behind the leftmost single-line span. -/
theorem JoinStep.exists_leftmost (h : JoinStep contents spans next) :
    ∃ before s behind, spans = before ++ s :: behind ∧
      (∀ r ∈ before, isSingleLine contents r = false) ∧ isSingleLine contents s = true ∧
      ((∃ t rest, behind = t :: rest ∧ next = before ++ ⟨s.start, t.stop⟩ :: rest) ∨
        ∃ first r, behind = [] ∧ before = first ++ [r] ∧ next = first ++ [⟨r.start, s.stop⟩]) := by
  cases h with
  | @next before behind s t hbefore hs =>
      exact ⟨before, s, t :: behind, rfl, hbefore, hs, .inl ⟨t, behind, rfl, rfl⟩⟩
  | @last before s t hbefore ht =>
      refine ⟨before ++ [s], t, [], ?_, hbefore, ht, .inr ⟨before, s, rfl, rfl, rfl⟩⟩
      rw [List.append_assoc, List.singleton_append]

theorem joinStep_rightUnique : Relator.RightUnique (JoinStep contents) := by
  intro spans next next' h h'
  obtain ⟨before, s, behind, rfl, hbefore, hs, hnext⟩ := h.exists_leftmost
  obtain ⟨before', s', behind', heq, hbefore', hs', hnext'⟩ := h'.exists_leftmost
  obtain ⟨rfl, rfl, rfl⟩ := leftmost_unique heq hbefore hs hbefore' hs'
  rcases hnext with ⟨t, rest, rfl, rfl⟩ | ⟨first, r, rfl, rfl, rfl⟩
  · rcases hnext' with ⟨t', rest', hbehind, rfl⟩ | ⟨_, _, hbehind, _, _⟩
    · obtain ⟨rfl, rfl⟩ := List.cons.inj hbehind
      rfl
    · cases hbehind
  · rcases hnext' with ⟨_, _, hbehind, _⟩ | ⟨first', r', _, hfirst, rfl⟩
    · cases hbehind
    · obtain ⟨rfl, hr⟩ := List.append_inj' hfirst rfl
      obtain ⟨rfl, -⟩ := List.cons.inj hr
      rfl

/-! ## Joining to the end -/

/-- The joinings come to an end where one span stands alone, or none is a single line. -/
structure Joined (contents : Contents) (spans result : List Span) : Prop where
  steps : Relation.ReflTransGen (JoinStep contents) spans result
  done : result.length ≤ 1 ∨ ∀ s ∈ result, isSingleLine contents s = false

/-- At the end there is nothing to join. -/
theorem JoinStep.not_done (h : JoinStep contents spans next) :
    ¬ (spans.length ≤ 1 ∨ ∀ s ∈ spans, isSingleLine contents s = false) := by
  rintro (hlength | hseveral)
  · obtain ⟨before, s, t, behind, rfl, -⟩ := h.exists_pair
    simp only [List.length_append, List.length_cons] at hlength
    omega
  · obtain ⟨before, s, behind, rfl, -, hs, -⟩ := h.exists_leftmost
    have hs' := hseveral s (List.mem_append_right _ List.mem_cons_self)
    rw [hs] at hs'
    cases hs'

theorem eq_of_steps_of_done (h : Relation.ReflTransGen (JoinStep contents) spans next)
    (hdone : spans.length ≤ 1 ∨ ∀ s ∈ spans, isSingleLine contents s = false) : spans = next := by
  rcases h.cases_head with rfl | ⟨_, hstep, _⟩
  · rfl
  · exact absurd hdone hstep.not_done

/-- The joinings end in one way only. -/
theorem Joined.unique {result' : List Span} (h : Joined contents spans result)
    (h' : Joined contents spans result') : result = result' := by
  rcases Relation.ReflTransGen.total_of_right_unique joinStep_rightUnique h.steps h'.steps with
    hsteps | hsteps
  · exact eq_of_steps_of_done hsteps h.done
  · exact (eq_of_steps_of_done hsteps h'.done).symm

/-! ## What joinings keep -/

/-- The spans reach as far as the given ones and have no other ends. -/
structure Coarsens (spans result : List Span) : Prop where
  first : result.head?.map Span.start = spans.head?.map Span.start
  last : result.getLast?.map Span.stop = spans.getLast?.map Span.stop
  starts : (result.map Span.start).Sublist (spans.map Span.start)
  stops : (result.map Span.stop).Sublist (spans.map Span.stop)

theorem JoinStep.coarsens (h : JoinStep contents spans next) : Coarsens spans next := by
  obtain ⟨before, s, t, behind, rfl, rfl⟩ := h.exists_pair
  refine ⟨?_, ?_, ?_, ?_⟩
  · cases before <;> rfl
  · cases behind <;> simp
  · simp only [List.map_append, List.map_cons]
    exact (List.Sublist.refl _).append (.cons_cons _ (.cons _ (.refl _)))
  · simp only [List.map_append, List.map_cons]
    exact (List.Sublist.refl _).append (.cons _ (.refl _))

theorem coarsens_of_steps (h : Relation.ReflTransGen (JoinStep contents) spans result) :
    Coarsens spans result := by
  induction h with
  | refl => exact ⟨rfl, rfl, .refl _, .refl _⟩
  | tail _ hstep ih =>
      have hlast := hstep.coarsens
      exact ⟨hlast.first.trans ih.first, hlast.last.trans ih.last, hlast.starts.trans ih.starts,
        hlast.stops.trans ih.stops⟩

theorem Coarsens.eq_nil (h : Coarsens spans result) (hnil : result = []) : spans = [] := by
  have hfirst := h.first
  rw [hnil, List.head?_nil, Option.map_none] at hfirst
  exact List.head?_eq_none_iff.mp (Option.map_eq_none_iff.mp hfirst.symm)

/-- Spans with bytes, in order. -/
structure Strung (a b : Int) (spans : List Span) : Prop where
  inOrder : InOrder a b spans
  nonempty : ∀ s ∈ spans, s.start < s.stop

theorem JoinStep.strung (h : JoinStep contents spans next) (hspans : Strung a b spans) :
    Strung a b next := by
  obtain ⟨before, s, t, behind, rfl, rfl⟩ := h.exists_pair
  obtain ⟨horder, hne⟩ := hspans
  simp only [List.forall_mem_append, List.forall_mem_cons] at hne
  obtain ⟨hne_before, hne_s, -, hne_behind⟩ := hne
  obtain ⟨m, hbefore, hrest⟩ := horder.append_inv
  cases hrest with
  | cons hm hs hrest =>
      cases hrest with
      | cons hst ht hbehind =>
          have hlt : s.start < t.stop := by omega
          refine ⟨hbefore.append (.cons hm (Int.le_of_lt hlt) hbehind), ?_⟩
          simp only [List.forall_mem_append, List.forall_mem_cons]
          exact ⟨hne_before, hlt, hne_behind⟩

theorem strung_of_steps (h : Relation.ReflTransGen (JoinStep contents) spans result)
    (hspans : Strung a b spans) : Strung a b result := by
  induction h with
  | refl => exact hspans
  | tail _ hstep ih => exact hstep.strung ih

/-! ## The pass -/

/-- The spans that have bytes. -/
def dropEmpty (spans : List Span) : List Span :=
  spans.filter fun s => !s.isEmpty

theorem mem_dropEmpty_iff {s : Span} : s ∈ dropEmpty spans ↔ s ∈ spans ∧ s.start < s.stop := by
  rw [dropEmpty, List.mem_filter, Bool.not_eq_true', Span.isEmpty_eq_false_iff]

theorem InOrder.strung_dropEmpty (h : InOrder a b spans) : Strung a b (dropEmpty spans) :=
  ⟨h.filter _, fun _ hs => (mem_dropEmpty_iff.mp hs).2⟩

theorem joinForward_dropEmpty :
    ∀ (waiting : Option Span) (spans : List Span),
      joinForward contents waiting (dropEmpty spans) = joinForward contents waiting spans
  | waiting, [] => rfl
  | waiting, s :: rest => by
      cases hs : s.isEmpty with
      | true =>
          have hdrop : dropEmpty (s :: rest) = dropEmpty rest := by simp [dropEmpty, hs]
          rw [hdrop, joinForward_dropEmpty waiting rest]
          simp only [joinForward, hs, if_true]
      | false =>
          have hdrop : dropEmpty (s :: rest) = s :: dropEmpty rest := by simp [dropEmpty, hs]
          simp only [hdrop, joinForward, hs, Bool.false_eq_true, if_false,
            joinForward_dropEmpty _ rest]

/-- Without the empty spans the pass does the same. -/
theorem joinSingleLines_dropEmpty :
    joinSingleLines contents (dropEmpty spans) = joinSingleLines contents spans := by
  simp only [joinSingleLines, joinForward_dropEmpty]

/-- Taking in the span that waits is a joining. -/
theorem steps_after {before rest : List Span} (waiting : Option Span) (s : Span)
    (hbefore : ∀ r ∈ before, isSingleLine contents r = false)
    (hwaiting : ∀ w ∈ waiting, isSingleLine contents w = true) :
    Relation.ReflTransGen (JoinStep contents) (before ++ waiting.toList ++ s :: rest)
      (before ++ s.after waiting :: rest) := by
  cases waiting with
  | none =>
      rw [Option.toList_none, List.append_nil]
      exact .refl
  | some w =>
      rw [Option.toList_some, List.append_assoc, List.singleton_append]
      exact .single (.next hbefore (hwaiting w rfl))

/-- The pass over spans with bytes is a run of joinings: what is written are spans of several lines,
and the span that waits is the leftmost single line. -/
theorem joinForward_steps :
    ∀ (before : List Span) (waiting : Option Span) {spans : List Span},
      (∀ r ∈ before, isSingleLine contents r = false) →
      (∀ w ∈ waiting, isSingleLine contents w = true) → (∀ s ∈ spans, s.start < s.stop) →
      Relation.ReflTransGen (JoinStep contents) (before ++ waiting.toList ++ spans)
          (before ++ (joinForward contents waiting spans).1
            ++ (joinForward contents waiting spans).2.toList) ∧
        (∀ r ∈ (joinForward contents waiting spans).1, isSingleLine contents r = false) ∧
        ∀ w ∈ (joinForward contents waiting spans).2, isSingleLine contents w = true
  | before, waiting, [], _, hwaiting, _ => by
      simp only [joinForward, List.append_nil]
      exact ⟨.refl, fun _ hr => absurd hr List.not_mem_nil, hwaiting⟩
  | before, waiting, s :: rest, hbefore, hwaiting, hne => by
      have hs := hne s List.mem_cons_self
      have hrest : ∀ t ∈ rest, t.start < t.stop := fun t ht => hne t (List.mem_cons_of_mem _ ht)
      have hjoin : Relation.ReflTransGen (JoinStep contents) (before ++ waiting.toList ++ s :: rest)
          (before ++ s.after waiting :: rest) := steps_after waiting s hbefore hwaiting
      cases hsingle : isSingleLine contents (s.after waiting) with
      | true =>
          rw [joinForward_cons_single hs hsingle]
          obtain ⟨hsteps, hwritten, hlast⟩ := joinForward_steps before (some (s.after waiting))
            hbefore (fun w hw => by cases hw; exact hsingle) hrest
          rw [Option.toList_some, List.append_assoc, List.singleton_append] at hsteps
          exact ⟨hjoin.trans hsteps, hwritten, hlast⟩
      | false =>
          rw [joinForward_cons_several hs hsingle]
          have hbefore' : ∀ r ∈ before ++ [s.after waiting], isSingleLine contents r = false :=
            List.forall_mem_append.mpr ⟨hbefore, List.forall_mem_singleton.mpr hsingle⟩
          obtain ⟨hsteps, hwritten, hlast⟩ := joinForward_steps _ none hbefore'
            (fun _ hw => absurd hw (Option.not_mem_none _)) hrest
          rw [Option.toList_none, List.append_nil, List.append_assoc, List.singleton_append,
            List.append_assoc before, List.singleton_append] at hsteps
          exact ⟨hjoin.trans hsteps, List.forall_mem_cons.mpr ⟨hsingle, hwritten⟩, hlast⟩

theorem stretchLast_concat (stop : Int) (t : Span) :
    ∀ first : List Span, stretchLast stop (first ++ [t]) = first ++ [⟨t.start, stop⟩]
  | [] => rfl
  | [_] => rfl
  | s :: u :: rest => congrArg (s :: ·) (stretchLast_concat stop t (u :: rest))

/-- Where the last span is the only single line, none is left after it was joined: the span before
it grows, and stays one of several lines. -/
theorem several_of_last {first : List Span} {t last : Span}
    (h : InOrder 0 contents.size (first ++ [t] ++ [last]))
    (hseveral : ∀ r ∈ first ++ [t], isSingleLine contents r = false) :
    ∀ r ∈ first ++ [⟨t.start, last.stop⟩], isSingleLine contents r = false := by
  obtain ⟨hfirst, ht⟩ := List.forall_mem_append.mp hseveral
  refine List.forall_mem_append.mpr ⟨hfirst, List.forall_mem_singleton.mpr ?_⟩
  obtain ⟨m, hbefore, hlast⟩ := h.append_inv
  have htbounds := hbefore.bounds t (List.mem_append_right _ (List.mem_singleton_self t))
  have hlbounds := hlast.bounds last (List.mem_singleton_self last)
  exact isSingleLine_eq_false_of_longer htbounds.1 htbounds.2.1 (by omega) hlbounds.2.2
    (ht t (List.mem_singleton_self t))

/-- The pass ends where the joinings do. -/
theorem joinSingleLines_joined (h : Strung 0 contents.size spans) :
    Joined contents spans (joinSingleLines contents spans) := by
  obtain ⟨hsteps, hseveral, hsingle⟩ := joinForward_steps [] none
    (fun _ hr => absurd hr List.not_mem_nil) (fun _ hw => absurd hw (Option.not_mem_none _))
    h.nonempty
  rw [Option.toList_none, List.append_nil, List.nil_append, List.nil_append] at hsteps
  have hstrung := strung_of_steps hsteps h
  unfold joinSingleLines
  generalize joinForward contents none spans = run at *
  obtain ⟨written, last⟩ := run
  match written, last with
  | written, none =>
      rw [Option.toList_none, List.append_nil] at hsteps
      exact ⟨hsteps, .inr hseveral⟩
  | [], some last => exact ⟨hsteps, .inl (Nat.le_refl _)⟩
  | s :: rest, some last =>
      obtain ⟨first, t, hwritten⟩ : ∃ first t, s :: rest = first ++ [t] :=
        ⟨_, _, (List.dropLast_append_getLast (List.cons_ne_nil s rest)).symm⟩
      simp only [hwritten, stretchLast_concat] at hsteps hseveral hstrung ⊢
      have hstep : JoinStep contents (first ++ [t] ++ [last])
          (first ++ [⟨t.start, last.stop⟩]) := by
        rw [List.append_assoc, List.singleton_append]
        exact .last hseveral (hsingle last rfl)
      exact ⟨hsteps.tail hstep, .inr (several_of_last hstrung.inOrder hseveral)⟩

/-- Of spans in order, the pass makes the one list at which joining the leftmost single line ends.
If two spans or more are left, none is a single line; they reach from the first span with bytes to
the last one and have no other ends than those; none is left only if none had bytes; and a second
pass changes nothing. -/
theorem joinSingleLines_leftmost_first (h : InOrder 0 contents.size spans) :
    (∀ result, Joined contents (dropEmpty spans) result ↔
        result = joinSingleLines contents spans) ∧
      (2 ≤ (joinSingleLines contents spans).length →
        ∀ s ∈ joinSingleLines contents spans, isSingleLine contents s = false) ∧
      Coarsens (dropEmpty spans) (joinSingleLines contents spans) ∧
      (joinSingleLines contents spans = [] → ∀ s ∈ spans, s.stop ≤ s.start) ∧
      joinSingleLines contents (joinSingleLines contents spans)
        = joinSingleLines contents spans := by
  have hstrung := h.strung_dropEmpty
  have hjoined := joinSingleLines_joined hstrung
  rw [joinSingleLines_dropEmpty] at hjoined
  have hcoarsens := coarsens_of_steps hjoined.steps
  have hresult := strung_of_steps hjoined.steps hstrung
  refine ⟨fun result => ⟨fun hresult => hresult.unique hjoined, fun heq => heq ▸ hjoined⟩,
    fun hlength => hjoined.done.resolve_left (by omega), hcoarsens, fun hnil s hs => ?_, ?_⟩
  · have hnone := hcoarsens.eq_nil hnil
    by_contra hne
    have hmem := mem_dropEmpty_iff.mpr ⟨hs, Int.not_le.mp hne⟩
    rw [hnone] at hmem
    exact absurd hmem List.not_mem_nil
  · -- the result is where the joinings that start at it end
    exact (joinSingleLines_joined hresult).unique ⟨.refl, hjoined.done⟩

end

/-- Six lines, of which the fifth is blank. -/
def shortLines : Contents :=
  .ofText "a\nb\nc\nd\n\ne"

/-- Two single lines, a span of two lines and another single line behind a gap, with empty spans
between them. -/
def spansOfShortLines : List Span :=
  [⟨0, 0⟩, ⟨0, 2⟩, ⟨2, 4⟩, ⟨4, 7⟩, ⟨8, 8⟩, ⟨9, 10⟩]

theorem joinSingleLines_leftmost_first_shortLines :
    InOrder 0 shortLines.size spansOfShortLines ∧
      dropEmpty spansOfShortLines = [⟨0, 2⟩, ⟨2, 4⟩, ⟨4, 7⟩, ⟨9, 10⟩] ∧
      joinSingleLines shortLines spansOfShortLines = [⟨0, 4⟩, ⟨4, 10⟩] ∧
      Joined shortLines (dropEmpty spansOfShortLines)
        (joinSingleLines shortLines spansOfShortLines) := by
  have horder : InOrder 0 shortLines.size spansOfShortLines :=
    .of_pairwise (by decide +kernel) (by decide +kernel) (by decide +kernel)
  exact ⟨horder, by decide, by decide +kernel,
    ((joinSingleLines_leftmost_first horder).1 _).mpr rfl⟩

end SyntaxChunks
