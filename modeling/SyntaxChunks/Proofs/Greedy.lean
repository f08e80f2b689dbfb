/-
# `Proofs.Greedy` — packing under two budgets, side by side

The same siblings are packed under a budget and under a larger one.  The two runs close their spans
at different places, and the one under the larger budget may well have closed one span more at some
sibling.  But it is never two behind: `Lag` says when it may be one behind, which is only while the
span it has open is not inside the one that the other run has open, and no sibling makes that worse
(`PackStep.lag`).  Both runs start with nothing open, so at the end it is not behind at all
(`length_packSiblings_le`).

* `length_pack_antitone` — no tree of nodes with bytes has more spans under a larger budget.

With both budgets the same, `length_packSiblings_le` says that closing a span early does not pay.
-/
import SyntaxChunks.Proofs.PackedSpans

namespace SyntaxChunks

variable {budget larger : Int} {depth : Nat}

/-! ## Wider spans -/

theorem Span.Around.refl (s : Span) : s.Around s :=
  ⟨Int.le_refl _, Int.le_refl _⟩

theorem Span.Around.length_le {s t : Span} (h : s.Around t) : t.length ≤ s.length :=
  Int.sub_le_sub h.2 h.1

/-- Around the wider of two spans the hull is wider. -/
theorem Span.Around.hull {s t : Span} (h : s.Around t) (u : Span) :
    (s.hull u).Around (t.hull u) := by
  obtain ⟨hstart, hstop⟩ := h
  constructor
  · simp only [Span.hull]
    omega
  · simp only [Span.hull]
    omega

/-! ## One sibling -/

section

variable {n : Node} {opened next : Option Span} {closed : List Span}

/-- A sibling over the budget closes what is open, and is packed on its own. -/
theorem PackStep.eq_of_long (h : PackStep budget depth n opened closed next)
    (hlong : budget < n.span.length) :
    closed = opened.toList ++ packNode budget (depth + 1) n ∧ next = none := by
  cases h with
  | long _ => exact ⟨rfl, rfl⟩
  | first hfit => omega
  | full hfit _ => omega
  | hull hfit _ => omega

/-- A sibling within the budget closes what is open if the two do not fit together, and else is
added to it. -/
theorem PackStep.cases_of_fits (h : PackStep budget depth n opened closed next)
    (hfit : n.span.length ≤ budget) :
    ((∀ s ∈ opened, budget < (s.hull n.span).length) ∧ closed = opened.toList ∧
        next = some n.span) ∨
      ∃ s, opened = some s ∧ (s.hull n.span).length ≤ budget ∧ closed = [] ∧
        next = some (s.hull n.span) := by
  cases h with
  | long hover => omega
  | first _ => exact .inl ⟨fun _ hs => absurd hs (Option.not_mem_none _), rfl, rfl⟩
  | @full s _ hover =>
      refine .inl ⟨fun t ht => ?_, rfl, rfl⟩
      cases ht
      exact hover
  | @hull s _ hjoin => exact .inr ⟨s, rfl, hjoin, rfl, rfl⟩

end

/-- How many spans the first of two runs may be behind, by the spans that the two have open: none if
it has nothing open, or something inside what the other has open, and else one. -/
inductive Lag : Nat → Option Span → Option Span → Prop
  | fresh {opened : Option Span} : Lag 0 none opened
  | inside {s t : Span} : t.Around s → Lag 0 (some s) (some t)
  | behind {opened' opened : Option Span} : Lag 1 opened' opened

theorem Lag.length_le {k : Nat} {opened opened' : Option Span} (h : Lag k opened' opened) :
    opened'.toList.length ≤ opened.toList.length + k := by
  have hone : opened'.toList.length ≤ 1 := by
    cases opened' <;> simp
  cases h with
  | fresh => exact Nat.zero_le _
  | inside => exact Nat.le_refl _
  | behind => omega

/-- No sibling lets the run under the larger budget fall behind, the spans that it closes for the
two runs counted. -/
theorem PackStep.lag {n : Node} {k : Nat} {opened opened' next next' : Option Span}
    {closed closed' : List Span} (h' : PackStep larger depth n opened' closed' next')
    (h : PackStep budget depth n opened closed next) (hle : budget ≤ larger)
    (hlag : Lag k opened' opened)
    (hlong : larger < n.span.length →
      (packNode larger (depth + 1) n).length ≤ (packNode budget (depth + 1) n).length)
    (hsome : budget < n.span.length → n.span.length ≤ larger →
      packNode budget (depth + 1) n ≠ []) :
    ∃ j, Lag j next' next ∧ closed'.length + j ≤ closed.length + k := by
  have hopen := hlag.length_le
  by_cases hover' : larger < n.span.length
  · -- too long for both
    obtain ⟨rfl, rfl⟩ := h'.eq_of_long hover'
    obtain ⟨rfl, rfl⟩ := h.eq_of_long (Int.lt_of_le_of_lt hle hover')
    have hpacked := hlong hover'
    refine ⟨0, .fresh, ?_⟩
    rw [List.length_append, List.length_append]
    omega
  · rw [Int.not_lt] at hover'
    by_cases hover : budget < n.span.length
    · -- the other run divides the node, and has a span of it for the one that this run adds
      obtain ⟨rfl, rfl⟩ := h.eq_of_long hover
      have hpacked := List.length_pos_iff.mpr (hsome hover hover')
      have hclosed : closed'.length ≤ opened'.toList.length := by
        rcases h'.cases_of_fits hover' with ⟨_, rfl, _⟩ | ⟨s, _, _, rfl, _⟩
        · exact Nat.le_refl _
        · exact Nat.zero_le _
      refine ⟨1, .behind, ?_⟩
      rw [List.length_append]
      omega
    · rw [Int.not_lt] at hover
      rcases h'.cases_of_fits hover' with ⟨hfull', rfl, rfl⟩ | ⟨s, rfl, _, rfl, rfl⟩
      · rcases h.cases_of_fits hover with ⟨_, rfl, rfl⟩ | ⟨t, rfl, hjoin, rfl, rfl⟩
        · exact ⟨0, .inside (.refl _), hopen⟩
        · refine ⟨0, .inside (t.hull_around_right _), ?_⟩
          cases hlag with
          | fresh => exact Nat.zero_le _
          | @inside s _ haround =>
              -- what does not fit to a span does not fit to one around it
              have hwider := (haround.hull n.span).length_le
              have hfull := hfull' s rfl
              omega
          | behind => simp
      · rcases h.cases_of_fits hover with ⟨_, rfl, rfl⟩ | ⟨t, rfl, _, rfl, rfl⟩
        · exact ⟨1, .behind, by simpa using hopen⟩
        · cases hlag with
          | inside haround => exact ⟨0, .inside (haround.hull _), Nat.le_refl _⟩
          | behind => exact ⟨1, .behind, Nat.le_refl _⟩

/-! ## Siblings -/

/-- The run under the larger budget has at most as many spans more as it is behind at the start. -/
theorem length_packSiblings_le (hle : budget ≤ larger) :
    ∀ {children : List Node} {k : Nat} {opened opened' : Option Span}, Lag k opened' opened →
      (∀ c ∈ children, larger < c.span.length →
        (packNode larger (depth + 1) c).length ≤ (packNode budget (depth + 1) c).length) →
      (∀ c ∈ children, budget < c.span.length → c.span.length ≤ larger →
        packNode budget (depth + 1) c ≠ []) →
      (packSiblings larger depth opened' children).length ≤
        (packSiblings budget depth opened children).length + k
  | [], k, opened, opened', hlag, _, _ => by
      simp only [packSiblings]
      exact hlag.length_le
  | n :: rest, k, opened, opened', hlag, hlong, hsome => by
      obtain ⟨closed', next', hstep', heq'⟩ := packSiblings_cons larger depth opened' n rest
      obtain ⟨closed, next, hstep, heq⟩ := packSiblings_cons budget depth opened n rest
      obtain ⟨j, hnext, hclosed⟩ := hstep'.lag hstep hle hlag (hlong n List.mem_cons_self)
        (hsome n List.mem_cons_self)
      have hrest := length_packSiblings_le hle hnext
        (fun c hc => hlong c (List.mem_cons_of_mem n hc))
        fun c hc => hsome c (List.mem_cons_of_mem n hc)
      rw [heq', heq, List.length_append, List.length_append]
      omega

/-! ## Trees -/

/-- No node of the tree stops where it starts. -/
def Node.Solid (root : Node) : Prop :=
  ∀ k n, root.At k n → n.start ≠ n.stop

theorem Node.Solid.child {root c : Node} (h : root.Solid) (hc : c ∈ root.children) : c.Solid :=
  fun k n hn => h (k + 1) n (Node.at_iff.mpr (.inr ⟨c, hc, k, rfl, hn⟩))

theorem Node.solid_iff {root : Node} :
    root.Solid ↔ root.start ≠ root.stop ∧ ∀ c ∈ root.children, c.Solid := by
  constructor
  · intro h
    exact ⟨h 0 root .root, fun c hc => h.child hc⟩
  · rintro ⟨hroot, hchildren⟩ k n hn
    rcases Node.at_iff.mp hn with ⟨_, rfl⟩ | ⟨c, hc, j, _, hj⟩
    · exact hroot
    · exact hchildren c hc j n hj

/-- The children of a solid node that agrees with them have bytes. -/
theorem Node.Solid.start_lt_stop {n : Node} (h : n.Solid) (hagree : n.fault? = none) :
    ∀ c ∈ n.children, c.start < c.stop := by
  intro c hc
  have hne : c.start ≠ c.stop := h 1 c (.child .root hc)
  have hup : c.start ≤ c.stop :=
    ((Node.fault?_eq_none_iff.mp hagree).2.bounds c.span (List.mem_map_of_mem hc)).2.1
  omega

/-- The spans of a node with bytes have bytes. -/
theorem packNode_nonempty {n : Node} (hlt : n.start < n.stop) :
    ∀ s ∈ packNode budget depth n, s.start < s.stop := by
  intro s hs
  rw [packNode_eq] at hs
  split at hs
  · rw [List.mem_singleton.mp hs]
    exact hlt
  · have hne := (List.mem_filter.mp hs).2
    rwa [Bool.not_eq_true', Span.isEmpty_eq_false_iff] at hne

/-- Where all children have bytes, no span is dropped. -/
theorem packNode_eq_packSiblings {n : Node} (hwhole : ¬ (n.whole? depth).isSome)
    (hbytes : ∀ c ∈ n.children, c.start < c.stop) :
    packNode budget depth n = packSiblings budget depth none n.children := by
  rw [packNode_eq, if_neg hwhole, List.filter_eq_self]
  intro s hs
  rw [Bool.not_eq_true', Span.isEmpty_eq_false_iff]
  refine packSiblings_forall (Q := fun s => s.start < s.stop)
    (fun _ h => absurd h (Option.not_mem_none _)) (fun c hc _ => packNode_nonempty (hbytes c hc))
    (fun c hc _ => hbytes c hc) (fun s hs c _ _ => ?_) s hs
  have haround := s.hull_around_left c.span
  exact Int.lt_of_le_of_lt haround.1 (Int.lt_of_lt_of_le hs haround.2)

/-- A solid tree has a span. -/
theorem packNode_ne_nil :
    ∀ (n : Node) (depth : Nat), n.Solid → packNode budget depth n ≠ [] := by
  intro n
  induction n using Node.induction with
  | step n ih =>
      intro depth hsolid
      by_cases hwhole : (n.whole? depth).isSome
      · rw [packNode_eq, if_pos hwhole]
        exact List.cons_ne_nil _ _
      · obtain ⟨hne, _, hagree⟩ := Node.not_isSome_whole?_iff.mp hwhole
        obtain ⟨c, hc⟩ := List.exists_mem_of_ne_nil _ hne
        obtain ⟨t, hkeeps⟩ : ∃ t, c.Keeps budget depth t := by
          obtain ⟨s, hs⟩ := List.exists_mem_of_ne_nil _ (ih c hc (depth + 1) (hsolid.child hc))
          by_cases hover : budget < c.span.length
          · exact ⟨s, fun hfit => absurd hover (Int.not_lt.mpr hfit), fun _ => ⟨s, hs, .refl s⟩⟩
          · exact ⟨c.span, fun _ => .refl c.span, fun hlong => absurd hlong hover⟩
        have hheld : (∃ s ∈ (none : Option Span), s.Around t) ∨
            ∃ c ∈ n.children, c.Keeps budget depth t := .inr ⟨c, hc, hkeeps⟩
        obtain ⟨s, hs, _⟩ := packSiblings_around hheld
        rw [packNode_eq_packSiblings hwhole (hsolid.start_lt_stop hagree)]
        exact List.ne_nil_of_mem hs

/-- A solid node has no more spans under the larger budget. -/
theorem length_packNode_le (hle : budget ≤ larger) :
    ∀ (n : Node) (depth : Nat), n.Solid →
      (packNode larger depth n).length ≤ (packNode budget depth n).length := by
  intro n
  induction n using Node.induction with
  | step n ih =>
      intro depth hsolid
      by_cases hwhole : (n.whole? depth).isSome
      · rw [packNode_eq, packNode_eq, if_pos hwhole, if_pos hwhole]
      · have hagree := (Node.not_isSome_whole?_iff.mp hwhole).2.2
        have hbytes := hsolid.start_lt_stop hagree
        rw [packNode_eq_packSiblings hwhole hbytes, packNode_eq_packSiblings hwhole hbytes]
        exact length_packSiblings_le hle .fresh
          (fun c hc _ => ih c hc (depth + 1) (hsolid.child hc))
          fun c hc _ _ => packNode_ne_nil c (depth + 1) (hsolid.child hc)

/-- Under a larger budget a tree without empty nodes has no more spans.  Nothing else is asked of
its ranges: a node that disagrees with its children is taken whole under either budget. -/
theorem length_pack_antitone {root : Node} (hsolid : root.Solid) {budget larger : Int}
    (hle : budget ≤ larger) : (pack larger root).length ≤ (pack budget root).length :=
  length_packNode_le hle root 0 hsolid

/-- A tree of two levels with gaps on both. -/
def twoLevels : Node :=
  ⟨"root", 0, 20, false,
    [⟨"a", 0, 4, false, []⟩,
      ⟨"b", 4, 14, false,
        [⟨"c", 4, 8, false, []⟩, ⟨"d", 9, 11, false, []⟩, ⟨"e", 11, 14, false, []⟩]⟩,
      ⟨"f", 14, 16, false, []⟩, ⟨"g", 17, 20, false, []⟩]⟩

theorem length_pack_antitone_twoLevels :
    twoLevels.Solid ∧ (5 : Int) ≤ 10 ∧
      pack 5 twoLevels = [⟨0, 4⟩, ⟨4, 8⟩, ⟨9, 14⟩, ⟨14, 16⟩, ⟨17, 20⟩] ∧
      pack 10 twoLevels = [⟨0, 4⟩, ⟨4, 14⟩, ⟨14, 20⟩] ∧
      (pack 10 twoLevels).length ≤ (pack 5 twoLevels).length := by
  have hlevels : ∀ c ∈ twoLevels.children, c.start ≠ c.stop ∧
      ∀ d ∈ c.children, d.start ≠ d.stop ∧ d.children = [] := by decide
  have hsolid : twoLevels.Solid := by
    refine Node.solid_iff.mpr ⟨by decide, fun c hc => ?_⟩
    obtain ⟨hc, hbelow⟩ := hlevels c hc
    refine Node.solid_iff.mpr ⟨hc, fun d hd k n hn => ?_⟩
    obtain ⟨hd, hleaf⟩ := hbelow d hd
    rw [Node.at_leaf hleaf hn]
    exact hd
  have hle : (5 : Int) ≤ 10 := by decide
  exact ⟨hsolid, hle, by decide, by decide, length_pack_antitone hsolid hle⟩

/-- A node without bytes and with a gap around it is dropped under the smaller budget, but keeps its
right neighbours from one span under the larger one. -/
example :
    let root : Node := ⟨"root", 0, 13, false,
      [⟨"a", 0, 2, false, []⟩, ⟨"b", 7, 7, false, []⟩, ⟨"c", 9, 12, false, []⟩,
        ⟨"d", 12, 13, false, []⟩]⟩
    pack 4 root = [⟨0, 2⟩, ⟨9, 13⟩] ∧ pack 5 root = [⟨0, 2⟩, ⟨7, 12⟩, ⟨12, 13⟩] := by
  decide

end SyntaxChunks
