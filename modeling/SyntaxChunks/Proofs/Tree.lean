/-
# `Proofs.Tree` — the nodes of a tree, and when their ranges agree

`root.At k n` says that `n` is a node of the tree of `root` and lies `k` levels
below it.  A node is orderly if its children are upright, in order, disjoint
and inside it; `fault?_eq_none_iff` is the check for that, for a node that is
itself upright.
-/
import SyntaxChunks.Packing
import SyntaxChunks.Proofs.Tiles

namespace SyntaxChunks

/-- To show something of all nodes, show it of a node from its children. -/
theorem Node.induction {P : Node → Prop} (step : ∀ n : Node, (∀ c ∈ n.children, P c) → P n) :
    ∀ n : Node, P n := by
  intro n
  refine @Node.rec P (fun cs => ∀ c ∈ cs, P c) ?_ ?_ ?_ n
  · intro kind start stop marked children ih
    exact step _ ih
  · exact fun _ hc => absurd hc List.not_mem_nil
  · intro head tail hhead htail c hc
    rcases List.mem_cons.mp hc with rfl | hc
    · exact hhead
    · exact htail c hc

/-- The node lies in the tree, so many levels below the root. -/
inductive Node.At (root : Node) : Nat → Node → Prop
  | root : At root 0 root
  | child {k : Nat} {n c : Node} : At root k n → c ∈ n.children → At root (k + 1) c

/-- A node of a tree is its root, or a node of the tree of a child. -/
theorem Node.at_iff {root n : Node} {k : Nat} :
    root.At k n ↔ (k = 0 ∧ n = root) ∨ ∃ c ∈ root.children, ∃ j, k = j + 1 ∧ c.At j n := by
  constructor
  · intro h
    induction h with
    | root => exact .inl ⟨rfl, rfl⟩
    | @child k n d hn hd ih =>
        rcases ih with ⟨rfl, rfl⟩ | ⟨c, hc, j, rfl, hj⟩
        · exact .inr ⟨d, hd, 0, rfl, .root⟩
        · exact .inr ⟨c, hc, j + 1, rfl, .child hj hd⟩
  · rintro (⟨rfl, rfl⟩ | ⟨c, hc, j, rfl, hj⟩)
    · exact .root
    · induction hj with
      | root => exact .child .root hc
      | child _ hd ih => exact .child ih hd

/-- A node without children is the only one of its tree. -/
theorem Node.at_leaf {root n : Node} {k : Nat} (h : root.children = []) (hn : root.At k n) :
    n = root := by
  rcases Node.at_iff.mp hn with ⟨_, rfl⟩ | ⟨c, hc, _⟩
  · rfl
  · rw [h] at hc
    exact absurd hc List.not_mem_nil

/-- The children of the node are upright, in order, disjoint and inside it. -/
structure Node.Orderly (n : Node) : Prop where
  upright : ∀ c ∈ n.children, c.start ≤ c.stop
  inside : ∀ c ∈ n.children, n.start ≤ c.start ∧ c.stop ≤ n.stop
  disjoint : n.children.Pairwise fun c d => c.stop ≤ d.start

/-- A tree all of whose nodes are orderly. -/
def Node.WellFormed (root : Node) : Prop :=
  ∀ k n, root.At k n → n.Orderly

/-- A tree is well-formed if its root is orderly and the trees below it are well-formed. -/
theorem Node.wellFormed_iff {root : Node} :
    root.WellFormed ↔ root.Orderly ∧ ∀ c ∈ root.children, c.WellFormed := by
  constructor
  · intro h
    exact ⟨h 0 root .root, fun c hc j n hn => h _ n (Node.at_iff.mpr (.inr ⟨c, hc, j, rfl, hn⟩))⟩
  · rintro ⟨hroot, hchildren⟩ k n hn
    rcases Node.at_iff.mp hn with ⟨_, rfl⟩ | ⟨c, hc, j, _, hj⟩
    · exact hroot
    · exact hchildren c hc j n hj

/-- An orderly node over leaves is the root of a well-formed tree. -/
theorem Node.Orderly.wellFormed {root : Node} (h : root.Orderly)
    (hleaves : ∀ c ∈ root.children, c.children = []) : root.WellFormed := by
  refine Node.wellFormed_iff.mpr ⟨h, fun c hc k n hn => ?_⟩
  have hnone : n.children = [] := by
    rw [Node.at_leaf (hleaves c hc) hn]
    exact hleaves c hc
  constructor <;> simp [hnone]

/-- In a well-formed tree all nodes lie inside the root. -/
theorem Node.WellFormed.inside {root n : Node} {k : Nat} (h : root.WellFormed) (hn : root.At k n) :
    root.start ≤ n.start ∧ n.stop ≤ root.stop := by
  induction hn with
  | root => exact ⟨Int.le_refl _, Int.le_refl _⟩
  | @child k n c hn hc ih =>
      have hin := (h k n hn).inside c hc
      exact ⟨Int.le_trans ih.1 hin.1, Int.le_trans hin.2 ih.2⟩

/-- A node that is not looked into however well its children fit: it has none,
or lies at the depth limit. -/
def Node.Atomic (depth : Nat) (n : Node) : Prop :=
  n.children = [] ∨ depthLimit ≤ depth

/-! ## Faults -/

theorem faultAmong_eq_none_iff {parent : Span} :
    ∀ {index : Nat} {left : Int} {spans : List Span}, parent.start ≤ left → left ≤ parent.stop →
      (faultAmong parent index left spans = none ↔ InOrder left parent.stop spans)
  | _, _, [], _, hright => by
      simp only [faultAmong, true_iff]
      exact .nil hright
  | index, left, s :: rest, hleft, hright => by
      constructor
      · intro h
        simp only [faultAmong] at h
        split at h
        · cases h
        · next hup =>
            split at h
            · cases h
            · next hin =>
                split at h
                · cases h
                · next hord =>
                    rw [not_or] at hin
                    have hrest := (faultAmong_eq_none_iff (by omega) (by omega)).mp h
                    exact .cons (by omega) (by omega) hrest
      · intro h
        cases h with
        | cons hle hs hrest =>
            have hstop := hrest.le
            have hin : ¬ (s.start < parent.start ∨ parent.stop < s.stop) := by omega
            have hup : ¬ s.stop < s.start := by omega
            have hord : ¬ s.start < left := by omega
            simp only [faultAmong, if_neg hup, if_neg hin, if_neg hord]
            exact (faultAmong_eq_none_iff (by omega) hstop).mpr hrest

theorem Node.fault?_eq_none_iff {n : Node} :
    n.fault? = none ↔ n.start ≤ n.stop ∧ InOrder n.start n.stop (n.children.map Node.span) := by
  unfold Node.fault?
  split
  · next hinv =>
      simp only [reduceCtorEq, false_iff]
      omega
  · next hup =>
      have hle : n.start ≤ n.stop := by omega
      have hleft : n.span.start ≤ n.start := Int.le_refl _
      rw [faultAmong_eq_none_iff hleft hle]
      exact ⟨fun h => ⟨hle, h⟩, And.right⟩

theorem Node.Orderly.inOrder {n : Node} (h : n.Orderly) (hle : n.start ≤ n.stop) :
    InOrder n.start n.stop (n.children.map Node.span) := by
  refine .of_pairwise hle (fun s hs => ?_) ?_
  · obtain ⟨c, hc, rfl⟩ := List.mem_map.mp hs
    have hin := h.inside c hc
    exact ⟨hin.1, h.upright c hc, hin.2⟩
  · exact List.pairwise_map.mpr h.disjoint

/-- An orderly node with children has no fault. -/
theorem Node.Orderly.fault?_eq_none {n : Node} (h : n.Orderly) (hne : n.children ≠ []) :
    n.fault? = none := by
  obtain ⟨c, hc⟩ := List.exists_mem_of_ne_nil _ hne
  have hup := h.upright c hc
  have hin := h.inside c hc
  have hle : n.start ≤ n.stop := by omega
  exact Node.fault?_eq_none_iff.mpr ⟨hle, h.inOrder hle⟩

/-! ## Nodes that are taken whole -/

theorem Node.whole?_eq_none_iff {depth : Nat} {n : Node} :
    n.whole? depth = none ↔ n.children ≠ [] ∧ depth < depthLimit ∧ n.fault? = none := by
  unfold Node.whole?
  split
  · next hempty => simp [List.isEmpty_iff.mp hempty]
  · next hempty =>
      rw [List.isEmpty_iff] at hempty
      split
      · next hdeep =>
          simp only [reduceCtorEq, false_iff, not_and]
          omega
      · next hdeep =>
          simp only [Option.map_eq_none_iff, ne_eq, hempty, not_false_eq_true, true_and]
          exact ⟨fun h => ⟨by omega, h⟩, And.right⟩

/-- A node is divided if it has children, agrees with them, and lies above the depth limit. -/
theorem Node.not_isSome_whole?_iff {depth : Nat} {n : Node} :
    ¬ (n.whole? depth).isSome ↔ n.children ≠ [] ∧ depth < depthLimit ∧ n.fault? = none := by
  rw [Bool.not_eq_true, Option.isSome_eq_false_iff, Option.isNone_iff_eq_none,
    Node.whole?_eq_none_iff]

/-- Of a well-formed tree only atomic nodes are taken whole. -/
theorem Node.Orderly.atomic_of_whole {depth : Nat} {n : Node} (h : n.Orderly)
    (hwhole : (n.whole? depth).isSome) : n.Atomic depth := by
  by_contra hatomic
  obtain ⟨hne, hdepth⟩ := not_or.mp hatomic
  exact Node.not_isSome_whole?_iff.mpr ⟨hne, by omega, h.fault?_eq_none hne⟩ hwhole

end SyntaxChunks
