/-
# `Proofs.Groups` — siblings in groups, and why packing makes the fewest

Where no child of a node is over the budget, packing divides the children into groups of neighbours
and gives the span of each group that has bytes (`packSiblings_eq_hulls`).  There are many divisions
into groups that keep to the budget, and packing finds one by a single look at each child.  None has
fewer groups (`length_packSiblings_le_of_groups`): packing takes a whole group of any other division
if it starts where the group does, and where it starts inside the group it is one span behind at
most.

The groups are counted by the hulls of their nodes, which asks nothing of the ranges.  Only in the
end is it used that the children are in order: then the hull of a group reaches from its first node
to its last.
-/
import SyntaxChunks.Proofs.Greedy

namespace SyntaxChunks

variable {budget : Int} {depth : Nat}

/-- Neighbours among siblings, at least one. -/
structure SiblingGroup where
  first : Node
  others : List Node
deriving Repr

namespace SiblingGroup

/-- The nodes of a group. -/
def nodes (g : SiblingGroup) : List Node :=
  g.first :: g.others

/-- From the start of the first node to the end of the last. -/
def span (g : SiblingGroup) : Span :=
  ⟨g.first.start, (g.others.getLastD g.first).stop⟩

/-- The least span around the span and all nodes. -/
def hullFrom (s : Span) (nodes : List Node) : Span :=
  nodes.foldl (fun t n => t.hull n.span) s

/-- The least span around all nodes. -/
def hull (g : SiblingGroup) : Span :=
  hullFrom g.first.span g.others

/-- The group and the sibling behind it. -/
def add (g : SiblingGroup) (n : Node) : SiblingGroup :=
  ⟨g.first, g.others ++ [n]⟩

@[simp] theorem nodes_add (g : SiblingGroup) (n : Node) : (g.add n).nodes = g.nodes ++ [n] := rfl

@[simp] theorem hull_add (g : SiblingGroup) (n : Node) : (g.add n).hull = g.hull.hull n.span := by
  simp only [hull, hullFrom, add, List.foldl_append, List.foldl_cons, List.foldl_nil]

theorem hullFrom_around (s : Span) (nodes : List Node) : (hullFrom s nodes).Around s := by
  induction nodes generalizing s with
  | nil => exact .refl s
  | cons n rest ih => exact (ih (s.hull n.span)).trans (s.hull_around_left n.span)

/-- Around nodes in order behind a span the hull ends with the last of them. -/
theorem hullFrom_eq {s : Span} {nodes : List Node} (hs : s.start ≤ s.stop)
    (hup : ∀ n ∈ nodes, n.start ≤ n.stop) (hbehind : ∀ n ∈ nodes, s.stop ≤ n.start)
    (horder : nodes.Pairwise fun m n => m.stop ≤ n.start) :
    hullFrom s nodes = ⟨s.start, (nodes.map Node.stop).getLastD s.stop⟩ := by
  induction nodes generalizing s with
  | nil => rfl
  | cons n rest ih =>
      obtain ⟨hfirst, hrest⟩ := List.pairwise_cons.mp horder
      have hn := hup n List.mem_cons_self
      have hsn := hbehind n List.mem_cons_self
      have hhull : s.hull n.span = ⟨s.start, n.stop⟩ := by
        simp only [Span.hull, Node.span, Span.mk.injEq]
        omega
      have hlt : s.start ≤ n.stop := by omega
      have hwhole := ih (s := ⟨s.start, n.stop⟩) hlt
        (fun m hm => hup m (List.mem_cons_of_mem n hm)) hfirst hrest
      rw [List.map_cons, List.getLastD_cons, ← hwhole, ← hhull]
      rfl

theorem hull_eq_span {g : SiblingGroup} (hup : ∀ n ∈ g.nodes, n.start ≤ n.stop)
    (horder : g.nodes.Pairwise fun m n => m.stop ≤ n.start) : g.hull = g.span := by
  obtain ⟨hbehind, hrest⟩ := List.pairwise_cons.mp horder
  have hothers : ∀ n ∈ g.others, n.start ≤ n.stop := fun n hn => hup n (List.mem_cons_of_mem _ hn)
  have hstop : (g.others.map Node.stop).getLastD g.first.stop = (g.others.getLastD g.first).stop :=
    List.getLastD_map
  rw [hull, hullFrom_eq (hup g.first List.mem_cons_self) hothers hbehind hrest]
  exact congrArg _ hstop

end SiblingGroup

open SiblingGroup (hullFrom hullFrom_around)

/-! ## Packing divides -/

/-- Siblings within the budget are divided into groups, the first of which begins with what is
open; their hulls are the spans. -/
theorem packSiblings_eq_hulls :
    ∀ {children : List Node} {opened : Option SiblingGroup},
      (∀ c ∈ children, c.span.length ≤ budget) → (∀ g ∈ opened, g.hull.length ≤ budget) →
      ∃ groups : List SiblingGroup,
        packSiblings budget depth (opened.map SiblingGroup.hull) children =
            groups.map SiblingGroup.hull ∧
          groups.flatMap SiblingGroup.nodes =
            opened.toList.flatMap SiblingGroup.nodes ++ children ∧
          ∀ g ∈ groups, g.hull.length ≤ budget
  | [], opened, _, hopen => by
      refine ⟨opened.toList, ?_, (List.append_nil _).symm, fun g hg => hopen g (by simpa using hg)⟩
      cases opened <;> rfl
  | n :: rest, opened, hfit, hopen => by
      obtain ⟨closed, next, hstep, heq⟩ :=
        packSiblings_cons budget depth (opened.map SiblingGroup.hull) n rest
      have hn := hfit n List.mem_cons_self
      have hrest : ∀ c ∈ rest, c.span.length ≤ budget :=
        fun c hc => hfit c (List.mem_cons_of_mem n hc)
      rw [heq]
      rcases hstep.cases_of_fits hn with ⟨_, rfl, rfl⟩ | ⟨s, hs, hjoin, rfl, rfl⟩
      · -- the node opens a group of its own
        have halone : ∀ g ∈ some (⟨n, []⟩ : SiblingGroup), g.hull.length ≤ budget := by
          rintro g ⟨⟩
          exact hn
        obtain ⟨groups, hspans, hnodes, hgroups⟩ := packSiblings_eq_hulls hrest halone
        refine ⟨opened.toList ++ groups, ?_, ?_, ?_⟩
        · rw [List.map_append, ← hspans]
          cases opened <;> rfl
        · rw [List.flatMap_append, hnodes]
          rfl
        · intro g hg
          rcases List.mem_append.mp hg with hg | hg
          · exact hopen g (by simpa using hg)
          · exact hgroups g hg
      · -- it is added to the open group
        obtain ⟨g, rfl, rfl⟩ := Option.map_eq_some_iff.mp hs
        have hadded : ∀ h ∈ some (g.add n), h.hull.length ≤ budget := by
          rintro h ⟨⟩
          rwa [SiblingGroup.hull_add]
        obtain ⟨groups, hspans, hnodes, hgroups⟩ := packSiblings_eq_hulls hrest hadded
        rw [Option.map_some, SiblingGroup.hull_add] at hspans
        refine ⟨groups, hspans, ?_, hgroups⟩
        rw [hnodes]
        simp

/-! ## No division has fewer groups -/

/-- Nodes whose hull with the open span is within the budget are all added to it. -/
theorem packSiblings_hullFrom {rest : List Node} :
    ∀ {nodes : List Node} {s : Span}, (hullFrom s nodes).length ≤ budget →
      packSiblings budget depth (some s) (nodes ++ rest) =
        packSiblings budget depth (some (hullFrom s nodes)) rest
  | [], _, _ => rfl
  | n :: nodes, s, hfit => by
      have hjoin : (s.hull n.span).length ≤ budget :=
        Int.le_trans (hullFrom_around (s.hull n.span) nodes).length_le hfit
      have hn : n.span.length ≤ budget :=
        Int.le_trans (s.hull_around_right n.span).length_le hjoin
      rw [List.cons_append, packSiblings, if_neg (Int.not_lt.mpr hn)]
      simp only [if_neg (Int.not_lt.mpr hjoin)]
      exact packSiblings_hullFrom hfit

/-- Packing that starts with a group within the budget takes all of it. -/
theorem packSiblings_nodes {rest : List Node} {g : SiblingGroup} (hfit : g.hull.length ≤ budget) :
    packSiblings budget depth none (g.nodes ++ rest) =
      packSiblings budget depth (some g.hull) rest := by
  have hfirst : g.first.span.length ≤ budget :=
    Int.le_trans (hullFrom_around g.first.span g.others).length_le hfit
  rw [SiblingGroup.nodes, List.cons_append, packSiblings, if_neg (Int.not_lt.mpr hfirst)]
  exact packSiblings_hullFrom hfit

/-- However siblings are divided into groups within the budget, packing gives at most as many
spans. -/
theorem length_packSiblings_le_of_groups :
    ∀ {groups : List SiblingGroup}, (∀ g ∈ groups, g.hull.length ≤ budget) →
      (packSiblings budget depth none (groups.flatMap SiblingGroup.nodes)).length ≤ groups.length
  | [], _ => Nat.le_refl _
  | g :: groups, hfit => by
      have hrest := length_packSiblings_le_of_groups fun h hh => hfit h (List.mem_cons_of_mem g hh)
      -- with the group open, packing is one span behind a fresh start at most
      have hbehind : Lag 1 (some g.hull) none := .behind
      have hlate :
          (packSiblings budget depth (some g.hull) (groups.flatMap SiblingGroup.nodes)).length ≤
            (packSiblings budget depth none (groups.flatMap SiblingGroup.nodes)).length + 1 :=
        length_packSiblings_le (Int.le_refl budget) hbehind (fun _ _ _ => Nat.le_refl _)
          fun _ _ hover hfits => absurd hover (Int.not_lt.mpr hfits)
      rw [List.flatMap_cons, packSiblings_nodes (hfit g List.mem_cons_self), List.length_cons]
      omega

/-! ## The children of a node -/

/-- The groups put the nodes one after the other, and none reaches over more than the budget. -/
structure Divides (budget : Int) (groups : List SiblingGroup) (nodes : List Node) : Prop where
  nodes_eq : groups.flatMap SiblingGroup.nodes = nodes
  fits : ∀ g ∈ groups, g.span.length ≤ budget

/-- Among the children of a node that agrees with them, the hull of a group is its span. -/
theorem Node.hull_eq_span {n : Node} (hagree : n.fault? = none) {groups : List SiblingGroup}
    (hnodes : groups.flatMap SiblingGroup.nodes = n.children) :
    ∀ g ∈ groups, g.hull = g.span := by
  intro g hg
  have horder := (Node.fault?_eq_none_iff.mp hagree).2
  have hsub : g.nodes.Sublist n.children := by
    rw [← hnodes, List.flatMap_def]
    exact List.sublist_flatten_of_mem (List.mem_map_of_mem hg)
  refine SiblingGroup.hull_eq_span (fun c hc => ?_) ?_
  · exact (horder.bounds c.span (List.mem_map_of_mem (hsub.subset hc))).2.1
  · exact (List.pairwise_map.mp horder.pairwise).sublist hsub

/-- The spans of a node that agrees with its children, none of which is over the budget, are the
spans with bytes of the groups of a division of the children, and no division has fewer groups. -/
theorem pack_fewest_groups {n : Node} {budget : Int} (hne : n.children ≠ [])
    (hagree : n.fault? = none) (hfit : ∀ c ∈ n.children, c.span.length ≤ budget) :
    ∃ groups, Divides budget groups n.children ∧
      pack budget n = (groups.map SiblingGroup.span).filter (fun s => !s.isEmpty) ∧
      ∀ others, Divides budget others n.children →
        (pack budget n).length ≤ groups.length ∧ groups.length ≤ others.length := by
  have hdivided : ¬ (n.whole? 0).isSome :=
    Node.not_isSome_whole?_iff.mpr ⟨hne, by decide, hagree⟩
  have hnothing : ∀ g ∈ (none : Option SiblingGroup), g.hull.length ≤ budget :=
    fun _ hg => absurd hg (Option.not_mem_none _)
  obtain ⟨groups, hspans, hnodes, hgroups⟩ := @packSiblings_eq_hulls budget 0 _ _ hfit hnothing
  rw [Option.map_none] at hspans
  have hhull := Node.hull_eq_span hagree hnodes
  have hpack : pack budget n =
      (groups.map SiblingGroup.span).filter (fun s => !s.isEmpty) := by
    rw [pack, packNode_eq, if_neg hdivided, hspans, List.map_congr_left hhull]
  refine ⟨groups, ⟨hnodes, fun g hg => hhull g hg ▸ hgroups g hg⟩, hpack, ?_⟩
  intro others hothers
  constructor
  · rw [hpack]
    simpa using List.length_filter_le _ (groups.map SiblingGroup.span)
  · have hhull' := Node.hull_eq_span hagree hothers.nodes_eq
    have hleast := @length_packSiblings_le_of_groups budget 0 others
      fun g hg => hhull' g hg ▸ hothers.fits g hg
    rw [hothers.nodes_eq, hspans, List.length_map] at hleast
    exact hleast

/-- A node over six children with gaps, two of them without bytes. -/
def spreadChildren : Node :=
  ⟨"root", 0, 30, false,
    [⟨"a", 0, 3, false, []⟩, ⟨"b", 8, 8, false, []⟩, ⟨"c", 15, 18, false, []⟩,
      ⟨"d", 18, 18, false, []⟩, ⟨"e", 19, 21, false, []⟩, ⟨"f", 21, 27, false, []⟩]⟩

/-- Its children in five groups. -/
def fiveGroups : List SiblingGroup :=
  [⟨⟨"a", 0, 3, false, []⟩, []⟩, ⟨⟨"b", 8, 8, false, []⟩, []⟩,
    ⟨⟨"c", 15, 18, false, []⟩, [⟨"d", 18, 18, false, []⟩]⟩, ⟨⟨"e", 19, 21, false, []⟩, []⟩,
    ⟨⟨"f", 21, 27, false, []⟩, []⟩]

theorem pack_fewest_groups_spread :
    spreadChildren.children ≠ [] ∧ spreadChildren.fault? = none ∧
      (∀ c ∈ spreadChildren.children, c.span.length ≤ 6) ∧
      Divides 6 fiveGroups spreadChildren.children ∧
      pack 6 spreadChildren = [⟨0, 3⟩, ⟨15, 21⟩, ⟨21, 27⟩] ∧
      ∃ groups, Divides 6 groups spreadChildren.children ∧
        pack 6 spreadChildren =
          (groups.map SiblingGroup.span).filter (fun s => !s.isEmpty) ∧
        (pack 6 spreadChildren).length ≤ groups.length ∧ groups.length ≤ fiveGroups.length := by
  have hne : spreadChildren.children ≠ [] := List.cons_ne_nil _ _
  have hagree : spreadChildren.fault? = none := by decide
  have hfit : ∀ c ∈ spreadChildren.children, c.span.length ≤ 6 := by decide
  have hfive : Divides 6 fiveGroups spreadChildren.children := ⟨rfl, by decide⟩
  obtain ⟨groups, hdivides, hpack, hfewest⟩ := pack_fewest_groups hne hagree hfit
  exact ⟨hne, hagree, hfit, hfive, by decide, groups, hdivides, hpack, hfewest _ hfive⟩

end SyntaxChunks
