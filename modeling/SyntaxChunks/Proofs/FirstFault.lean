/-
# `Proofs.FirstFault` — a node has no fault if it agrees with its children, and else its first

Children are looked at from left to right, and of those before only the end of the last is kept.
That is enough: as long as nothing is wrong with them the ends ascend, so a child that starts behind
the last one starts behind all (`Node.fault?_eq_none_iff_orderly`).

A child is looked at only after those before it have passed, so the fault is that of the first child
with which the children so far do not agree.  What is wrong with it is told by the first of three
questions: is it inverted, is it outside its parent, does it start before its left sibling ends
(`Node.ChildFault`)?
-/
import Mathlib.Order.Bounds.Basic
import SyntaxChunks.Proofs.Numerals
import SyntaxChunks.Proofs.Tree

namespace SyntaxChunks

/-! ## The span at which a run of spans goes wrong -/

/-- The end of the last span, or `left` if there is none. -/
def edgeOf (left : Int) : List Span → Int
  | [] => left
  | s :: rest => edgeOf s.stop rest

theorem edgeOf_concat {s : Span} : ∀ {front : List Span} {left : Int},
    edgeOf left (front ++ [s]) = s.stop
  | [], _ => rfl
  | t :: front, _ => @edgeOf_concat s front t.stop

section

variable {parent : Span}

theorem faultAmong_cons (index : Nat) (left : Int) (s : Span) (rest : List Span) :
    faultAmong parent index left (s :: rest) =
      (faultAmong parent index left [s]).or (faultAmong parent (index + 1) s.stop rest) := by
  simp only [faultAmong]
  split
  · rfl
  · split
    · rfl
    · split
      · rfl
      · rfl

/-- The fault of some spans is that of a span behind others without one. -/
theorem exists_first_of_faultAmong {f : Fault} :
    ∀ {spans : List Span} {index : Nat} {left : Int}, faultAmong parent index left spans = some f →
      ∃ front s back, spans = front ++ s :: back ∧ faultAmong parent index left front = none ∧
        faultAmong parent (index + front.length) (edgeOf left front) [s] = some f
  | [], _, _, h => by cases h
  | s :: rest, index, left, h => by
      rw [faultAmong_cons] at h
      cases hs : faultAmong parent index left [s] with
      | some g =>
          rw [hs, Option.some_or] at h
          exact ⟨[], s, rest, rfl, rfl, hs.trans h⟩
      | none =>
          rw [hs, Option.none_or] at h
          obtain ⟨front, t, back, hsplit, hfront, ht⟩ := exists_first_of_faultAmong h
          refine ⟨s :: front, t, back, congrArg (s :: ·) hsplit, ?_, ?_⟩
          · rw [faultAmong_cons, hs, hfront]
            rfl
          · have hindex : index + (s :: front).length = index + 1 + front.length := by
              rw [List.length_cons]
              omega
            rw [hindex]
            exact ht

end

/-! ## The child at which a node goes wrong -/

/-- The node with its first children only. -/
def Node.upTo (n : Node) (k : Nat) : Node :=
  { n with children := n.children.take k }

/-- The fault says what is wrong with the child of a number: it is inverted, or else reaches out of
its parent, or else starts before its left sibling ends. -/
inductive Node.ChildFault (n : Node) : Nat → Fault → Prop
  | inverted {k : Nat} {c : Node} : n.children[k]? = some c → c.stop < c.start →
      ChildFault n k (.invertedChild k)
  | outside {k : Nat} {c : Node} : n.children[k]? = some c → c.start ≤ c.stop →
      c.start < n.start ∨ n.stop < c.stop → ChildFault n k (.outsideChild k)
  | overlapping {k : Nat} {d c : Node} : n.children[k]? = some d → n.children[k + 1]? = some c →
      c.start ≤ c.stop → n.start ≤ c.start → c.stop ≤ n.stop → c.start < d.stop →
      ChildFault n (k + 1) (.overlappingChild (k + 1))

/-- The first number up to which the children do not agree with the node or with each other. -/
def Node.FirstDisagreement (n : Node) (k : Nat) : Prop :=
  IsLeast {j | ¬ (n.upTo (j + 1)).Orderly} k

/-- The fault is that of the node: the node is inverted, or it is not, and the fault is that of the
first child by which the children do not agree. -/
inductive Node.HasFault (n : Node) : Fault → Prop
  | inverted : n.stop < n.start → HasFault n .inverted
  | child {k : Nat} {f : Fault} : n.start ≤ n.stop → n.FirstDisagreement k → n.ChildFault k f →
      HasFault n f

section

variable {n : Node} {k : Nat} {f : Fault}

theorem Node.orderly_of_inOrder (h : InOrder n.start n.stop (n.children.map Node.span)) :
    n.Orderly where
  upright c hc := (h.bounds c.span (List.mem_map_of_mem hc)).2.1
  inside c hc :=
    have hin := h.bounds c.span (List.mem_map_of_mem hc)
    ⟨hin.1, hin.2.2⟩
  disjoint := List.pairwise_map.mp h.pairwise

/-- A node has no fault exactly if it is upright and its children are upright, inside it, and each
ends before all later ones start. -/
theorem Node.fault?_eq_none_iff_orderly : n.fault? = none ↔ n.start ≤ n.stop ∧ n.Orderly := by
  rw [Node.fault?_eq_none_iff]
  exact ⟨fun h => ⟨h.1, Node.orderly_of_inOrder h.2⟩, fun h => ⟨h.1, h.2.inOrder h.1⟩⟩

theorem Node.fault?_eq_inverted (h : n.stop < n.start) : n.fault? = some .inverted :=
  if_pos h

/-- What is asked of a child, in the order in which it is asked. -/
theorem Node.childFault_of_faultAmong {front back : List Node} {c : Node}
    (hchildren : n.children = front ++ c :: back)
    (h : faultAmong n.span front.length (edgeOf n.start (front.map Node.span)) [c.span] = some f) :
    n.ChildFault front.length f := by
  have hc : n.children[front.length]? = some c := by
    rw [hchildren]
    simp
  simp only [faultAmong] at h
  split at h
  · next hinverted =>
      cases h
      exact .inverted hc hinverted
  · next hupright =>
      split at h
      · next hout =>
          cases h
          exact .outside hc (Int.not_lt.mp hupright) hout
      · next hin =>
          rw [not_or] at hin
          split at h
          · next hbefore =>
              cases h
              -- the first child cannot start before its parent any more
              rcases List.eq_nil_or_concat front with rfl | ⟨front, d, rfl⟩
              · exact absurd hbefore hin.1
              · have hd : n.children[front.length]? = some d := by
                  rw [hchildren]
                  simp
                rw [List.concat_eq_append] at hc hbefore ⊢
                rw [List.length_append, List.length_singleton] at hc ⊢
                rw [List.map_append, List.map_singleton, edgeOf_concat] at hbefore
                exact .overlapping hd hc (Int.not_lt.mp hupright) (Int.not_lt.mp hin.1)
                  (Int.not_lt.mp hin.2) hbefore
          · cases h

/-- The fault of an upright node is that of a child behind others that agree. -/
theorem Node.exists_childFault (hle : n.start ≤ n.stop) (h : n.fault? = some f) :
    ∃ k, (n.upTo k).Orderly ∧ n.ChildFault k f := by
  rw [Node.fault?, if_neg (Int.not_lt.mpr hle)] at h
  obtain ⟨spans, s, rest, hsplit, hfront, hs⟩ := exists_first_of_faultAmong h
  obtain ⟨front, behind, hchildren, rfl, hbehind⟩ := List.map_eq_append_iff.mp hsplit
  obtain ⟨c, back, rfl, rfl, _⟩ := List.map_eq_cons_iff.mp hbehind
  rw [List.length_map, Nat.zero_add] at hs
  refine ⟨front.length, ?_, childFault_of_faultAmong hchildren hs⟩
  have hupTo : n.upTo front.length = { n with children := front } := by
    rw [Node.upTo, hchildren, List.take_left]
  rw [hupTo]
  refine (Node.fault?_eq_none_iff_orderly.mp ?_).2
  rw [Node.fault?, if_neg (Int.not_lt.mpr hle)]
  exact hfront

theorem Node.upTo_upTo {j : Nat} (hj : j ≤ k) : (n.upTo k).upTo j = n.upTo j := by
  simp only [Node.upTo, List.take_take, Nat.min_eq_left hj]

theorem Node.Orderly.upTo (h : n.Orderly) (k : Nat) : (n.upTo k).Orderly where
  upright c hc := h.upright c (List.mem_of_mem_take hc)
  inside c hc := h.inside c (List.mem_of_mem_take hc)
  disjoint := h.disjoint.sublist (List.take_sublist k n.children)

theorem Node.getElem?_upTo {i : Nat} (h : i < k) : (n.upTo k).children[i]? = n.children[i]? :=
  List.getElem?_take_of_lt h

/-- Each child of an orderly node ends before all later ones start. -/
theorem Node.Orderly.stop_le_start (h : n.Orderly) {i j : Nat} {d c : Node} (hij : i < j)
    (hd : n.children[i]? = some d) (hc : n.children[j]? = some c) : d.stop ≤ c.start := by
  obtain ⟨hi, rfl⟩ := List.getElem?_eq_some_iff.mp hd
  obtain ⟨hj, rfl⟩ := List.getElem?_eq_some_iff.mp hc
  exact List.pairwise_iff_getElem.mp h.disjoint i j hi hj hij

/-- Together with a child that has a fault the children do not agree. -/
theorem Node.ChildFault.not_orderly (h : n.ChildFault k f) : ¬ (n.upTo (k + 1)).Orderly := by
  intro hagree
  cases h with
  | @inverted _ c hc hlt =>
      rw [← Node.getElem?_upTo (Nat.lt_succ_self k)] at hc
      have hle := hagree.upright c (List.mem_of_getElem? hc)
      omega
  | @outside _ c hc _ hout =>
      rw [← Node.getElem?_upTo (Nat.lt_succ_self k)] at hc
      have hin : n.start ≤ c.start ∧ c.stop ≤ n.stop := hagree.inside c (List.mem_of_getElem? hc)
      omega
  | @overlapping k d c hd hc _ _ _ hlt =>
      rw [← Node.getElem?_upTo (show k < k + 1 + 1 by omega)] at hd
      rw [← Node.getElem?_upTo (Nat.lt_succ_self (k + 1))] at hc
      have hle := hagree.stop_le_start (Nat.lt_succ_self k) hd hc
      omega

/-- The fault of a node is what is wrong with the first child that does not fit. -/
theorem Node.hasFault_of_eq_some (h : n.fault? = some f) : n.HasFault f := by
  rcases Int.lt_or_le n.stop n.start with hinverted | hle
  · rw [Node.fault?_eq_inverted hinverted] at h
    cases h
    exact .inverted hinverted
  · obtain ⟨k, hbefore, hchild⟩ := Node.exists_childFault hle h
    refine .child hle ⟨hchild.not_orderly, fun j hj => ?_⟩ hchild
    refine Nat.le_of_not_lt fun hlt => hj ?_
    rw [← Node.upTo_upTo (show j + 1 ≤ k from hlt)]
    exact hbefore.upTo (j + 1)

/-- A child has one fault only, since each question is asked if those before it are answered no. -/
theorem Node.ChildFault.unique {g : Fault} (hf : n.ChildFault k f) (hg : n.ChildFault k g) :
    f = g := by
  cases hf with
  | inverted hc hlt =>
      cases hg with
      | inverted => rfl
      | outside hc' hle _ => grind
      | overlapping _ hc' hle _ _ _ => grind
  | outside hc hle hout =>
      cases hg with
      | inverted hc' hlt => grind
      | outside => rfl
      | overlapping _ hc' _ hstart hstop _ => grind
  | overlapping _ hc hle hstart hstop _ =>
      cases hg with
      | inverted hc' hlt => grind
      | outside hc' _ hout => grind
      | overlapping => rfl

theorem Node.HasFault.unique {g : Fault} (hf : n.HasFault f) (hg : n.HasFault g) : f = g := by
  cases hf with
  | inverted hlt =>
      cases hg with
      | inverted => rfl
      | child hle _ _ => omega
  | child hle hfirst hchild =>
      cases hg with
      | inverted hlt => omega
      | child _ hfirst' hchild' =>
          cases hfirst.unique hfirst'
          exact hchild.unique hchild'

theorem Node.HasFault.eq_some (h : n.HasFault f) : n.fault? = some f := by
  cases hfault : n.fault? with
  | some g => rw [h.unique (Node.hasFault_of_eq_some hfault)]
  | none =>
      obtain ⟨hle, hagree⟩ := Node.fault?_eq_none_iff_orderly.mp hfault
      cases h with
      | inverted hlt => omega
      | child _ _ hchild => exact absurd (hagree.upTo _) hchild.not_orderly

end

/-! ## The text of a fault -/

namespace Fault

/-- The number of the child that the fault is about. -/
def child? : Fault → Option Nat
  | .inverted => none
  | .invertedChild k | .outsideChild k | .overlappingChild k => some k

/-- The text of the fault names the child with this number. -/
def Names (f : Fault) (k : Nat) : Prop :=
  ∃ what, f.message = "child " ++ toString k ++ " " ++ what

variable {f : Fault} {k : Nat}

/-- What is wrong with a child stands behind its number. -/
theorem names_of_child? (h : f.child? = some k) : f.Names k := by
  cases f with
  | inverted => cases h
  | invertedChild i =>
      cases h
      refine ⟨"has an inverted range", ?_⟩
      rw [String.append_assoc]
      rfl
  | outsideChild i =>
      cases h
      refine ⟨"lies outside its parent", ?_⟩
      rw [String.append_assoc]
      rfl
  | overlappingChild i =>
      cases h
      refine ⟨"overlaps or precedes its left sibling", ?_⟩
      rw [String.append_assoc]
      rfl

/-- A number is read up to the blank behind it. -/
theorem takeWhile_numeral (k : Nat) (rest : List Char) :
    (Number.numeral k ++ ' ' :: rest).takeWhile Char.isDigit = Number.numeral k := by
  rw [List.takeWhile_append_of_pos Number.isDigit_of_mem_numeral,
    List.takeWhile_cons_of_neg (by decide), List.append_nil]

theorem number_inj {i : Nat} {what what' : String}
    (h : "child " ++ toString k ++ " " ++ what = "child " ++ toString i ++ " " ++ what') :
    k = i := by
  have hchars : Number.numeral k ++ ' ' :: what.toList
      = Number.numeral i ++ ' ' :: what'.toList := by
    have htoList := congrArg String.toList h
    simpa [← Number.toList_repr] using htoList
  have hnumber := congrArg (List.takeWhile Char.isDigit) hchars
  rw [takeWhile_numeral, takeWhile_numeral] at hnumber
  rw [← Number.natOfDigits_numeral k, hnumber, Number.natOfDigits_numeral]

/-- The text tells which child the fault is about, if it is about one. -/
theorem names_iff : f.Names k ↔ f.child? = some k := by
  refine ⟨fun ⟨what, hwhat⟩ => ?_, names_of_child?⟩
  cases hchild : f.child? with
  | some i =>
      obtain ⟨what', hwhat'⟩ := names_of_child? hchild
      rw [number_inj (hwhat'.symm.trans hwhat)]
  | none =>
      have hinverted : f = .inverted := by
        cases f with
        | inverted => rfl
        | _ => cases hchild
      rw [hinverted] at hwhat
      have hchars := congrArg String.toList hwhat
      simp [message] at hchars

end Fault

theorem Node.ChildFault.child? {n : Node} {k : Nat} {f : Fault} (h : n.ChildFault k f) :
    f.child? = some k := by
  cases h <;> rfl

/-- A node has no fault exactly if it is upright and each of its children is upright, lies inside it
and ends before all later children start.  Else its fault is that it is inverted, or what is wrong
with the first child up to which this does not hold of its children.  The text of the fault names
that child and no other. -/
theorem fault?_first (n : Node) :
    (n.fault? = none ↔ n.start ≤ n.stop ∧ n.Orderly) ∧
    (∀ f, n.fault? = some f ↔ n.HasFault f) ∧
    ∀ f k, n.fault? = some f → (f.Names k ↔ n.start ≤ n.stop ∧ n.FirstDisagreement k) := by
  refine ⟨Node.fault?_eq_none_iff_orderly,
    fun f => ⟨Node.hasFault_of_eq_some, Node.HasFault.eq_some⟩, fun f k hfault => ?_⟩
  rw [Fault.names_iff]
  cases Node.hasFault_of_eq_some hfault with
  | inverted hlt => exact ⟨nofun, fun h => absurd h.1 (Int.not_le.mpr hlt)⟩
  | child hle hfirst hchild =>
      rw [hchild.child?, Option.some.injEq]
      constructor
      · rintro rfl
        exact ⟨hle, hfirst⟩
      · rintro ⟨_, hfirst'⟩
        exact hfirst.unique hfirst'

-- a child without bytes is fine, and the one behind it may not start before it
example : Node.fault? ⟨"list", 0, 9, false,
    [⟨"item", 0, 4, false, []⟩, ⟨"item", 4, 4, false, []⟩, ⟨"item", 3, 9, false, []⟩]⟩
    = some (.overlappingChild 2) := by decide

end SyntaxChunks
