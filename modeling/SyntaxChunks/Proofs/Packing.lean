/-
# `Proofs.Packing` — the spans that packing makes of a tree

`PackStep` says what one child does to the open span; what a step keeps, a run
over siblings keeps (`packSiblings_cons`), and with it a whole tree.  So a
property that whole nodes and small nodes have, and that hulls within the
budget keep, holds of all spans (`packNode_forall`).

* `pack_fits` — a span is within the budget, or that of a node taken whole.
* `ends_pack` — a span starts where a node starts and stops where one stops.
* `pack_inOrder` — the spans follow one another inside the root.
* `pack_around` — of a well-formed tree one of them reaches around each leaf.
* `pack_start_outside` — of a well-formed tree none starts inside a leaf.
-/
import SyntaxChunks.Proofs.Tree

namespace SyntaxChunks

variable {budget : Int} {depth : Nat}

/-! ## One child -/

/-- What a child makes of the open span: the spans it closes, and the one it
leaves open. -/
inductive PackStep (budget : Int) (depth : Nat) (n : Node) :
    Option Span → List Span → Option Span → Prop
  | long {opened : Option Span} : budget < n.span.length →
      PackStep budget depth n opened (opened.toList ++ packNode budget (depth + 1) n) none
  | first : n.span.length ≤ budget → PackStep budget depth n none [] (some n.span)
  | full {s : Span} : n.span.length ≤ budget → budget < (s.hull n.span).length →
      PackStep budget depth n (some s) [s] (some n.span)
  | hull {s : Span} : n.span.length ≤ budget → (s.hull n.span).length ≤ budget →
      PackStep budget depth n (some s) [] (some (s.hull n.span))

theorem packSiblings_cons (budget : Int) (depth : Nat) (opened : Option Span) (n : Node)
    (rest : List Node) :
    ∃ closed opened', PackStep budget depth n opened closed opened' ∧
      packSiblings budget depth opened (n :: rest)
        = closed ++ packSiblings budget depth opened' rest := by
  by_cases hlong : budget < n.span.length
  · exact ⟨_, _, .long hlong, by simp only [packSiblings, if_pos hlong]⟩
  · have hfit := Int.not_lt.mp hlong
    cases opened with
    | none => exact ⟨_, _, .first hfit, by simp only [packSiblings, if_neg hlong, List.nil_append]⟩
    | some s =>
        by_cases hover : budget < (s.hull n.span).length
        · refine ⟨_, _, .full hfit hover, ?_⟩
          simp only [packSiblings, if_neg hlong, if_pos hover, List.singleton_append]
        · refine ⟨_, _, .hull hfit (Int.not_lt.mp hover), ?_⟩
          simp only [packSiblings, if_neg hlong, if_neg hover, List.nil_append]

/-! ## What holds of every span -/

theorem PackStep.forall {Q : Span → Prop} {n : Node} {opened opened' : Option Span}
    {closed : List Span} (h : PackStep budget depth n opened closed opened')
    (hopen : ∀ s ∈ opened, Q s)
    (hlong : budget < n.span.length → ∀ s ∈ packNode budget (depth + 1) n, Q s)
    (hshort : n.span.length ≤ budget → Q n.span)
    (hhull : ∀ s, Q s → (s.hull n.span).length ≤ budget → Q (s.hull n.span)) :
    (∀ s ∈ closed, Q s) ∧ ∀ s ∈ opened', Q s := by
  cases h with
  | long hover =>
      refine ⟨fun s hs => ?_, fun s hs => absurd hs (Option.not_mem_none _)⟩
      rcases List.mem_append.mp hs with hs | hs
      · exact hopen s (Option.mem_toList.mp hs)
      · exact hlong hover s hs
  | first hfit =>
      refine ⟨fun s hs => absurd hs List.not_mem_nil, fun s hs => ?_⟩
      cases hs
      exact hshort hfit
  | @full t hfit _ =>
      refine ⟨fun s hs => ?_, fun s hs => ?_⟩
      · rw [List.mem_singleton.mp hs]
        exact hopen t rfl
      · cases hs
        exact hshort hfit
  | @hull t _ hjoin =>
      refine ⟨fun s hs => absurd hs List.not_mem_nil, fun s hs => ?_⟩
      cases hs
      exact hhull t (hopen t rfl) hjoin

theorem packSiblings_forall {Q : Span → Prop} :
    ∀ {opened : Option Span} {children : List Node}, (∀ s ∈ opened, Q s) →
      (∀ c ∈ children, budget < c.span.length → ∀ s ∈ packNode budget (depth + 1) c, Q s) →
      (∀ c ∈ children, c.span.length ≤ budget → Q c.span) →
      (∀ s, Q s → ∀ c ∈ children, (s.hull c.span).length ≤ budget → Q (s.hull c.span)) →
      ∀ s ∈ packSiblings budget depth opened children, Q s
  | opened, [], hopen, _, _, _, s, hs => by
      simp only [packSiblings, Option.mem_toList] at hs
      exact hopen s hs
  | opened, n :: rest, hopen, hlong, hshort, hhull, s, hs => by
      obtain ⟨closed, opened', hstep, heq⟩ := packSiblings_cons budget depth opened n rest
      obtain ⟨hclosed, hopen'⟩ := hstep.forall hopen (hlong n List.mem_cons_self)
        (hshort n List.mem_cons_self) fun s hs => hhull s hs n List.mem_cons_self
      rw [heq] at hs
      rcases List.mem_append.mp hs with hs | hs
      · exact hclosed s hs
      · exact packSiblings_forall hopen' (fun c hc => hlong c (List.mem_cons_of_mem _ hc))
          (fun c hc => hshort c (List.mem_cons_of_mem _ hc))
          (fun s hs c hc => hhull s hs c (List.mem_cons_of_mem _ hc)) s hs

/-- A property of the nodes taken whole and of the nodes within the budget, kept
by hulls within the budget, is one of all spans. -/
theorem packNode_forall {Q : Span → Prop} {root : Node}
    (hwhole : ∀ k n, root.At k n → (n.whole? k).isSome → Q n.span)
    (hshort : ∀ k n, root.At k n → n.span.length ≤ budget → Q n.span)
    (hhull : ∀ s, Q s → ∀ k n, root.At k n → (s.hull n.span).length ≤ budget → Q (s.hull n.span)) :
    ∀ n k, root.At k n → ∀ s ∈ packNode budget k n, Q s := by
  intro n
  induction n using Node.induction with
  | step n ih =>
      intro k hn s hs
      rw [packNode_eq] at hs
      split at hs
      · next h =>
          rw [List.mem_singleton.mp hs]
          exact hwhole k n hn h
      · refine packSiblings_forall (fun _ h => absurd h (Option.not_mem_none _))
          (fun c hc _ => ?_) (fun c hc => ?_) (fun s hs c hc => ?_) s (List.mem_filter.mp hs).1
        · exact ih c hc (k + 1) (.child hn hc)
        · exact hshort (k + 1) c (.child hn hc)
        · exact hhull s hs (k + 1) c (.child hn hc)

/-- A span is within the budget, or that of a node that is taken whole. -/
theorem pack_fits {root : Node} :
    ∀ s ∈ pack budget root, s.length ≤ budget ∨
      ∃ k n, root.At k n ∧ (n.whole? k).isSome ∧ s = n.span := by
  refine packNode_forall (fun k n hn hwhole => ?_) (fun k n _ hfit => .inl hfit)
    (fun s _ k n _ hfit => .inl hfit) root 0 .root
  exact .inr ⟨k, n, hn, hwhole, rfl⟩

/-- A span starts where some node starts and stops where some node stops. -/
theorem ends_pack {root : Node} :
    ∀ s ∈ pack budget root, (∃ k n, root.At k n ∧ s.start = n.start) ∧
      ∃ k n, root.At k n ∧ s.stop = n.stop := by
  refine packNode_forall (fun k n hn _ => ⟨⟨k, n, hn, rfl⟩, k, n, hn, rfl⟩)
    (fun k n hn _ => ⟨⟨k, n, hn, rfl⟩, k, n, hn, rfl⟩) (fun s hs k n hn _ => ?_) root 0 .root
  -- either end of a hull is that of one of its two parts
  constructor
  · by_cases hle : s.start ≤ n.span.start
    · have heq : (s.hull n.span).start = s.start := Int.min_eq_left hle
      rw [heq]
      exact hs.1
    · exact ⟨k, n, hn, Int.min_eq_right (by omega)⟩
  · by_cases hle : n.span.stop ≤ s.stop
    · have heq : (s.hull n.span).stop = s.stop := Int.max_eq_left hle
      rw [heq]
      exact hs.2
    · exact ⟨k, n, hn, Int.max_eq_right (by omega)⟩

/-! ## Order -/

/-- A child behind the open span closes spans in order, and leaves one open behind them. -/
theorem PackStep.inOrder {n : Node} {opened opened' : Option Span} {closed : List Span}
    {a left : Int} (h : PackStep budget depth n opened closed opened')
    (hopen : InOrder a left opened.toList) (hleft : left ≤ n.start) (hn : n.start ≤ n.stop)
    (hbelow : InOrder n.start n.stop (packNode budget (depth + 1) n)) :
    ∃ m, InOrder a m closed ∧ InOrder m n.stop opened'.toList := by
  have ha := hopen.le
  have hfresh : InOrder left n.stop [n.span] := .cons hleft hn (.nil (Int.le_refl _))
  cases h with
  | long =>
      exact ⟨n.stop, (hopen.weaken (Int.le_refl _) hleft).append hbelow, .nil (Int.le_refl _)⟩
  | first => exact ⟨a, .nil (Int.le_refl _), hfresh.weaken ha (Int.le_refl _)⟩
  | full => exact ⟨left, hopen, hfresh⟩
  | @hull s =>
      cases hopen with
      | cons hs hss hnil =>
          have hsleft := hnil.le
          have hstart : (s.hull n.span).start = s.start :=
            Int.min_eq_left (show s.start ≤ n.start by omega)
          have hstop : (s.hull n.span).stop = n.stop :=
            Int.max_eq_right (show s.stop ≤ n.stop by omega)
          refine ⟨a, .nil (Int.le_refl _), ?_⟩
          exact .cons (hstart ▸ hs) (by omega) (.nil (Int.le_of_eq hstop))

/-- Between siblings in order the spans are in order, whatever lies below. -/
theorem packSiblings_inOrder {b : Int} :
    ∀ {a left : Int} {opened : Option Span} {children : List Node},
      InOrder a left opened.toList → InOrder left b (children.map Node.span) →
      (∀ c ∈ children, InOrder c.start c.stop (packNode budget (depth + 1) c)) →
      InOrder a b (packSiblings budget depth opened children)
  | a, left, opened, [], hopen, hnil, _ => by
      rw [packSiblings]
      exact hopen.weaken (Int.le_refl _) hnil.le
  | a, left, opened, n :: rest, hopen, hspans, hbelow => by
      rw [List.map_cons] at hspans
      cases hspans with
      | cons hle hn htail =>
          obtain ⟨closed, opened', hstep, heq⟩ := packSiblings_cons budget depth opened n rest
          obtain ⟨m, hclosed, hopen'⟩ :=
            hstep.inOrder hopen hle hn (hbelow n List.mem_cons_self)
          rw [heq]
          exact hclosed.append (packSiblings_inOrder hopen' htail fun c hc =>
            hbelow c (List.mem_cons_of_mem n hc))

/-- The spans of an upright node follow one another inside it.  Nothing is
asked of what lies below: a node looked into vouches for its children. -/
theorem packNode_inOrder :
    ∀ (n : Node) (depth : Nat), n.start ≤ n.stop →
      InOrder n.start n.stop (packNode budget depth n) := by
  intro n
  induction n using Node.induction with
  | step n ih =>
      intro depth hle
      rw [packNode_eq]
      split
      · exact .cons (Int.le_refl _) hle (.nil (Int.le_refl _))
      · next hwhole =>
          have hfault := (Node.not_isSome_whole?_iff.mp hwhole).2.2
          have hchildren := (Node.fault?_eq_none_iff.mp hfault).2
          refine (packSiblings_inOrder (.nil (Int.le_refl _)) hchildren fun c hc => ?_).filter _
          exact ih c hc (depth + 1) (hchildren.bounds _ (List.mem_map_of_mem hc)).2.1

theorem pack_inOrder {root : Node} (h : root.start ≤ root.stop) :
    InOrder root.start root.stop (pack budget root) :=
  packNode_inOrder root 0 h

/-- No span is empty, except that of a root taken whole. -/
theorem pack_nonempty (budget : Int) (root : Node) :
    (∀ s ∈ pack budget root, s.start < s.stop) ∨
      (root.whole? 0).isSome ∧ pack budget root = [root.span] := by
  unfold pack
  rw [packNode_eq]
  split
  · next hwhole => exact .inr ⟨hwhole, rfl⟩
  · refine .inl fun s hs => ?_
    have hne := (List.mem_filter.mp hs).2
    rw [Bool.not_eq_true', Span.isEmpty_eq_false_iff] at hne
    exact hne

/-! ## Leaves -/

/-- The span reaches around the other. -/
def Span.Around (s t : Span) : Prop :=
  s.start ≤ t.start ∧ t.stop ≤ s.stop

theorem Span.Around.trans {s t u : Span} (h : s.Around t) (h' : t.Around u) : s.Around u :=
  ⟨Int.le_trans h.1 h'.1, Int.le_trans h'.2 h.2⟩

theorem Span.Around.holds {s t : Span} {i : Int} (h : s.Around t) (hi : t.Holds i) : s.Holds i :=
  ⟨Int.le_trans h.1 hi.1, Int.lt_of_lt_of_le hi.2 h.2⟩

theorem Span.hull_around_left (s t : Span) : (s.hull t).Around s :=
  ⟨Int.min_le_left _ _, Int.le_max_left _ _⟩

theorem Span.hull_around_right (s t : Span) : (s.hull t).Around t :=
  ⟨Int.min_le_right _ _, Int.le_max_right _ _⟩

/-- However the child is packed, a span of it reaches around the given one. -/
def Node.Keeps (budget : Int) (depth : Nat) (t : Span) (c : Node) : Prop :=
  (c.span.length ≤ budget → c.span.Around t) ∧
    (budget < c.span.length → ∃ s ∈ packNode budget (depth + 1) c, s.Around t)

theorem PackStep.around {t : Span} {n : Node} {opened opened' : Option Span} {closed : List Span}
    (h : PackStep budget depth n opened closed opened')
    (hheld : (∃ s ∈ opened, s.Around t) ∨ n.Keeps budget depth t) :
    ∃ s ∈ closed ++ opened'.toList, s.Around t := by
  cases h with
  | long hover =>
      rcases hheld with ⟨s, hs, ht⟩ | hn
      · exact ⟨s, List.mem_append_left _ (List.mem_append_left _ (Option.mem_toList.mpr hs)), ht⟩
      · obtain ⟨s, hs, ht⟩ := hn.2 hover
        exact ⟨s, List.mem_append_left _ (List.mem_append_right _ hs), ht⟩
  | first hfit =>
      rcases hheld with ⟨s, hs, _⟩ | hn
      · cases hs
      · exact ⟨n.span, List.mem_singleton_self _, hn.1 hfit⟩
  | @full u hfit _ =>
      rcases hheld with ⟨s, hs, ht⟩ | hn
      · cases hs
        exact ⟨u, List.mem_cons_self, ht⟩
      · exact ⟨n.span, List.mem_cons_of_mem _ (List.mem_singleton_self _), hn.1 hfit⟩
  | @hull u hfit _ =>
      rcases hheld with ⟨s, hs, ht⟩ | hn
      · cases hs
        exact ⟨_, List.mem_singleton_self _, (u.hull_around_left _).trans ht⟩
      · exact ⟨_, List.mem_singleton_self _, (u.hull_around_right _).trans (hn.1 hfit)⟩

/-- What the open span reaches around is not lost, nor what a child keeps. -/
theorem packSiblings_around {t : Span} :
    ∀ {opened : Option Span} {children : List Node},
      ((∃ s ∈ opened, s.Around t) ∨ ∃ c ∈ children, c.Keeps budget depth t) →
      ∃ s ∈ packSiblings budget depth opened children, s.Around t
  | opened, [], h => by
      rcases h with ⟨s, hs, ht⟩ | ⟨c, hc, _⟩
      · rw [packSiblings]
        exact ⟨s, Option.mem_toList.mpr hs, ht⟩
      · exact absurd hc List.not_mem_nil
  | opened, n :: rest, h => by
      obtain ⟨closed, opened', hstep, heq⟩ := packSiblings_cons budget depth opened n rest
      rw [heq]
      have hnext : (∃ s ∈ closed ++ opened'.toList, s.Around t) ∨
          ∃ c ∈ rest, c.Keeps budget depth t := by
        rcases h with hopen | ⟨c, hc, hkeeps⟩
        · exact .inl (hstep.around (.inl hopen))
        · rcases List.mem_cons.mp hc with rfl | hc
          · exact .inl (hstep.around (.inr hkeeps))
          · exact .inr ⟨c, hc, hkeeps⟩
      rcases hnext with ⟨s, hs, ht⟩ | hrest
      · rcases List.mem_append.mp hs with hs | hs
        · exact ⟨s, List.mem_append_left _ hs, ht⟩
        · obtain ⟨u, hu, haround⟩ := packSiblings_around (.inl ⟨s, Option.mem_toList.mp hs, ht⟩)
          exact ⟨u, List.mem_append_right _ hu, haround⟩
      · obtain ⟨u, hu, haround⟩ := packSiblings_around (.inr hrest)
        exact ⟨u, List.mem_append_right _ hu, haround⟩

/-- Of a well-formed tree no leaf with bytes is lost or divided. -/
theorem packNode_around {leaf : Node} (hleaf : leaf.children = []) (hlt : leaf.start < leaf.stop) :
    ∀ (n : Node) (depth : Nat), n.WellFormed → (∃ k, n.At k leaf) →
      ∃ s ∈ packNode budget depth n, s.Around leaf.span := by
  intro n
  induction n using Node.induction with
  | step n ih =>
      intro depth hwell hat
      obtain ⟨k, hat⟩ := hat
      rw [packNode_eq]
      split
      · exact ⟨n.span, List.mem_singleton_self _, hwell.inside hat⟩
      · next hwhole =>
          have hne := (Node.not_isSome_whole?_iff.mp hwhole).1
          rcases Node.at_iff.mp hat with ⟨_, rfl⟩ | ⟨c, hc, j, _, hj⟩
          · exact absurd hleaf hne
          · have hbelow := (Node.wellFormed_iff.mp hwell).2 c hc
            have hkeeps : c.Keeps budget depth leaf.span :=
              ⟨fun _ => hbelow.inside hj, fun _ => ih c hc (depth + 1) hbelow ⟨j, hj⟩⟩
            obtain ⟨s, hs, haround⟩ := packSiblings_around (.inr ⟨c, hc, hkeeps⟩)
            refine ⟨s, List.mem_filter.mpr ⟨hs, ?_⟩, haround⟩
            have hstart : s.start ≤ leaf.start := haround.1
            have hstop : leaf.stop ≤ s.stop := haround.2
            rw [Bool.not_eq_true', Span.isEmpty_eq_false_iff]
            omega

theorem pack_around {root leaf : Node} {k : Nat} (hwell : root.WellFormed) (hat : root.At k leaf)
    (hleaf : leaf.children = []) (hlt : leaf.start < leaf.stop) :
    ∃ s ∈ pack budget root, s.Around leaf.span :=
  packNode_around hleaf hlt root 0 hwell ⟨k, hat⟩

theorem pack_holds {root leaf : Node} {k : Nat} {i : Int} (hwell : root.WellFormed)
    (hat : root.At k leaf) (hleaf : leaf.children = []) (hi : leaf.span.Holds i) :
    ∃ s ∈ pack budget root, s.Holds i := by
  have hlt : leaf.start < leaf.stop := Int.lt_of_le_of_lt hi.1 hi.2
  obtain ⟨s, hs, haround⟩ := pack_around hwell hat hleaf hlt
  exact ⟨s, hs, haround.holds hi⟩

/-- No span of a well-formed tree starts inside a leaf. -/
theorem pack_start_outside {root leaf : Node} {k : Nat} (hwell : root.WellFormed)
    (hat : root.At k leaf) (hleaf : leaf.children = []) :
    ∀ s ∈ pack budget root, ¬ (leaf.start < s.start ∧ s.start < leaf.stop) := by
  rintro s hs ⟨hlow, hhigh⟩
  obtain ⟨t, ht, hstart, hstop⟩ := @pack_around budget _ _ _ hwell hat hleaf (by omega)
  have hin := hwell.inside hat
  have horder : InOrder root.start root.stop (pack budget root) := pack_inOrder (by omega)
  have hstart' : t.start ≤ leaf.start := hstart
  have hstop' : leaf.stop ≤ t.stop := hstop
  have hbefore := horder.stop_le_start ht hs (by omega)
  omega

end SyntaxChunks
