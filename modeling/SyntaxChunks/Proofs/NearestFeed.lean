/-
# `Proofs.NearestFeed` — the nearest line feed, by bisection and by looking at every byte

Looking at every byte of a window finds its line feeds in ascending order, and the first of those
with the least distance to the target is the nearest (`Contents.scanNearest`).  Bisection looks at
two of them at most: the last one before the target, and the first one from it on.

`LineIndex.checkedNearest` is bisection with its faults spelled out: a position read has to have a
line feed, and there have to be one or two candidates.  It never has a fault, and finds what looking
at every byte finds (`nearestLineEnd?_exhaustive`).
-/
import Mathlib.Data.List.MinMax
import SyntaxChunks.Proofs.Except
import SyntaxChunks.Proofs.Lines

namespace SyntaxChunks

/-! ## Looking at every byte -/

/-- The line feeds of a window, in ascending order. -/
def Contents.windowFeeds (contents : Contents) (low high : Int) : List Nat :=
  (List.range contents.size).filter fun i =>
    contents[i]? = some newline ∧ low ≤ i ∧ (i : Int) ≤ high - 1

/-- The offset behind the first of the line feeds in a window that are nearest to the target. -/
def Contents.scanNearest (contents : Contents) (target low high : Int) : Option Nat :=
  ((contents.windowFeeds low high).argmin fun i : Nat => (i - target).natAbs).map (· + 1)

/-- Of the line feeds in the window this one is nearest to the target, and the first if there are
two. -/
structure Contents.NearestFeed (contents : Contents) (target low high : Int) (i : Nat) : Prop where
  feed : contents[i]? = some newline
  low_le : low ≤ i
  le_high : (i : Int) ≤ high - 1
  nearest : ∀ j : Nat, contents[j]? = some newline → low ≤ j → (j : Int) ≤ high - 1 →
    (i - target).natAbs < (j - target).natAbs ∨
      (i - target).natAbs = (j - target).natAbs ∧ i ≤ j

/-! ## Bisection with its faults -/

/-- Why a search cannot go on: there is no line feed at a position, or there are neither one nor two
candidates. -/
inductive SearchFault where
  | noFeed (position : Nat)
  | candidates (count : Nat)
deriving DecidableEq, Repr

namespace LineIndex

/-- The line feed at a position. -/
def feedAt (index : LineIndex) (position : Nat) : Except SearchFault Nat :=
  match index.feeds[position]? with
  | some feed => .ok feed
  | none => .error (.noFeed position)

/-- The positions of the last line feed before the target and of the first one from it on, as far as
the window has them. -/
def candidatePositions (index : LineIndex) (target : Int) (first past : Nat) : List Nat :=
  let middle := index.firstFrom target first past
  (if first < middle then [middle - 1] else []) ++ if middle < past then [middle] else []

/-- The offset behind the candidate that is nearer to the target. -/
def choose (target : Int) : List Nat → Except SearchFault Nat
  | [a] => .ok (a + 1)
  | [a, b] => .ok (if target - a ≤ b - target then a + 1 else b + 1)
  | candidates => .error (.candidates candidates.length)

/-- The offset behind the line feed of a window that is nearest to the target, unless the search has
a fault. -/
def checkedNearest (index : LineIndex) (target low high : Int) :
    Except SearchFault (Option Nat) :=
  let first := index.firstFrom low 0 index.feeds.size
  let past := index.firstFrom high 0 index.feeds.size
  if first < past then do
    let candidates ← (index.candidatePositions target first past).mapM index.feedAt
    return some (← choose target candidates)
  else
    return none

section

variable {index : LineIndex}

theorem feedAt_eq_ok {i f : Nat} (hf : index.feeds[i]? = some f) : index.feedAt i = .ok f := by
  rw [feedAt, hf]

/-- A window with candidates to read and to choose among has a nearest line end. -/
theorem checkedNearest_eq_some {target low high : Int} {first past lineEnd : Nat}
    (hlow : index.firstFrom low 0 index.feeds.size = first)
    (hhigh : index.firstFrom high 0 index.feeds.size = past) (hsome : first < past)
    (candidates : List Nat)
    (hread : List.Forall₂ (fun i f => index.feeds[i]? = some f)
      (index.candidatePositions target first past) candidates)
    (hchoose : choose target candidates = .ok lineEnd) :
    index.checkedNearest target low high = .ok (some lineEnd) := by
  simp only [checkedNearest, hlow, hhigh, if_pos hsome]
  refine bind_eq_ok.mpr ⟨candidates, mapM_eq_ok.mpr (hread.imp fun _ _ => feedAt_eq_ok), ?_⟩
  exact bind_eq_ok.mpr ⟨lineEnd, hchoose, rfl⟩

/-- The search has no fault. -/
theorem checkedNearest_eq (h : index.Sound) (target low high : Int) :
    index.checkedNearest target low high = .ok (index.nearestLineEnd? target low high) := by
  have hsize := (firstFrom_spec h high (Nat.zero_le _) (Nat.le_refl _)).2.1
  unfold nearestLineEnd?
  generalize hlow : index.firstFrom low 0 index.feeds.size = first
  generalize hhigh : index.firstFrom high 0 index.feeds.size = past at hsize ⊢
  by_cases hsome : first < past
  · obtain ⟨hfirst, hpast, _, _⟩ := firstFrom_spec h target (Nat.le_of_lt hsome) hsize
    have hread : ∀ i < past, ∃ f, index.feeds[i]? = some f :=
      fun i hi => ⟨_, Array.getElem?_eq_getElem (Nat.lt_of_lt_of_le hi hsize)⟩
    have hpositions : index.candidatePositions target first past =
        (if first < index.firstFrom target first past
          then [index.firstFrom target first past - 1] else []) ++
        if index.firstFrom target first past < past
          then [index.firstFrom target first past] else [] := rfl
    simp only [if_pos hsome]
    generalize index.firstFrom target first past = middle at hfirst hpast hpositions ⊢
    -- the target stands before all line feeds of the window, behind all, or between two
    by_cases hleft : first < middle
    · obtain ⟨a, ha⟩ := hread (middle - 1) (by omega)
      by_cases hright : middle < past
      · obtain ⟨b, hb⟩ := hread middle hright
        rw [if_pos hleft, if_pos hright] at hpositions ⊢
        rw [ha, hb]
        refine checkedNearest_eq_some hlow hhigh hsome [a, b] ?_ rfl
        rw [hpositions]
        exact .cons ha (.cons hb .nil)
      · rw [if_pos hleft, if_neg hright] at hpositions ⊢
        rw [ha]
        refine checkedNearest_eq_some hlow hhigh hsome [a] ?_ rfl
        rw [hpositions]
        exact .cons ha .nil
    · have hright : middle < past := by omega
      obtain ⟨b, hb⟩ := hread middle hright
      rw [if_neg hleft, if_pos hright] at hpositions ⊢
      rw [hb]
      refine checkedNearest_eq_some hlow hhigh hsome [b] ?_ rfl
      rw [hpositions]
      exact .cons hb .nil
  · simp only [checkedNearest, hlow, hhigh, if_neg hsome]
    rfl

end

end LineIndex

/-! ## The two searches -/

section

variable {contents : Contents} {target low high : Int}

theorem mem_windowFeeds {i : Nat} :
    i ∈ contents.windowFeeds low high ↔
      contents[i]? = some newline ∧ low ≤ i ∧ (i : Int) ≤ high - 1 := by
  rw [Contents.windowFeeds, List.mem_filter, List.mem_range, decide_eq_true_eq]
  refine ⟨fun h => h.2, fun h => ⟨?_, h⟩⟩
  exact (Array.getElem?_eq_some_iff.mp h.1).1

theorem windowFeeds_ascending (contents : Contents) (low high : Int) :
    (contents.windowFeeds low high).Pairwise (· < ·) :=
  List.pairwise_lt_range.filter _

/-- In an ascending list a smaller member comes first. -/
theorem idxOf_le_of_le {l : List Nat} (h : l.Pairwise (· < ·)) {i j : Nat} (hi : i ∈ l) (hj : j ∈ l)
    (hij : i ≤ j) : l.idxOf i ≤ l.idxOf j := by
  by_contra hlt
  have hless := List.pairwise_iff_getElem.mp h (l.idxOf j) (l.idxOf i)
    (List.idxOf_lt_length_iff.mpr hj) (List.idxOf_lt_length_iff.mpr hi) (Nat.not_le.mp hlt)
  rw [List.getElem_idxOf, List.getElem_idxOf] at hless
  omega

theorem Contents.NearestFeed.scanNearest_eq {i : Nat} (h : contents.NearestFeed target low high i) :
    contents.scanNearest target low high = some (i + 1) := by
  have hmem : i ∈ contents.windowFeeds low high :=
    mem_windowFeeds.mpr ⟨h.feed, h.low_le, h.le_high⟩
  have hleast : (contents.windowFeeds low high).argmin (fun j : Nat => (j - target).natAbs)
      = some i := by
    refine List.argmin_eq_some_iff.mpr ⟨hmem, fun j hj => ?_, fun j hj hle => ?_⟩
    · obtain ⟨hfeed, hlow, hhigh⟩ := mem_windowFeeds.mp hj
      rcases h.nearest j hfeed hlow hhigh with hlt | ⟨heq, _⟩
      · exact Nat.le_of_lt hlt
      · exact Nat.le_of_eq heq
    · obtain ⟨hfeed, hlow, hhigh⟩ := mem_windowFeeds.mp hj
      rcases h.nearest j hfeed hlow hhigh with hlt | ⟨_, hij⟩
      · exact absurd hlt (Nat.not_lt.mpr hle)
      · exact idxOf_le_of_le (windowFeeds_ascending contents low high) hmem hj hij
  rw [Contents.scanNearest, hleast]
  rfl

theorem Contents.NearestFeed.unique {i j : Nat} (hi : contents.NearestFeed target low high i)
    (hj : contents.NearestFeed target low high j) : i = j := by
  have hij := hi.nearest j hj.feed hj.low_le hj.le_high
  have hji := hj.nearest i hi.feed hi.low_le hi.le_high
  omega

theorem LineIndex.Nearest.nearestFeed {i : Nat}
    (h : (LineIndex.ofContents contents).Nearest target low high i) :
    contents.NearestFeed target low high i where
  feed := LineIndex.mem_feeds_ofContents.mp h.feed
  low_le := h.low_le
  le_high := Int.le_sub_one_of_lt h.lt_high
  nearest j hfeed hlow hhigh :=
    h.nearest j (LineIndex.mem_feeds_ofContents.mpr hfeed) hlow (Int.lt_of_le_sub_one hhigh)

/-- Bisection finds nothing in a window without line feeds, and else the end of the nearest. -/
theorem nearestLineEnd?_ofContents (contents : Contents) (target low high : Int) :
    ((LineIndex.ofContents contents).nearestLineEnd? target low high = none ∧
        contents.windowFeeds low high = []) ∨
      ∃ i, (LineIndex.ofContents contents).nearestLineEnd? target low high = some (i + 1) ∧
        contents.NearestFeed target low high i := by
  rcases LineIndex.nearestLineEnd?_cases (LineIndex.sound_ofContents contents) target low high with
    ⟨hnone, hempty⟩ | ⟨i, hsome, hnearest⟩
  · refine .inl ⟨hnone, List.eq_nil_iff_forall_not_mem.mpr fun i hi => ?_⟩
    obtain ⟨hfeed, hlow, hhigh⟩ := mem_windowFeeds.mp hi
    exact hempty i (LineIndex.mem_feeds_ofContents.mpr hfeed) hlow (Int.lt_of_le_sub_one hhigh)
  · exact .inr ⟨i, hsome, hnearest.nearestFeed⟩

end

/-- Bisection never has a fault, whatever the target and the window, and finds what looking at every
byte of the window finds: nothing exactly if the window has no line feed, and else the offset behind
the nearest one, which is the first if there are two. -/
theorem nearestLineEnd?_exhaustive (contents : Contents) (target low high : Int) :
    (LineIndex.ofContents contents).checkedNearest target low high
        = .ok ((LineIndex.ofContents contents).nearestLineEnd? target low high) ∧
      (LineIndex.ofContents contents).nearestLineEnd? target low high
        = contents.scanNearest target low high ∧
      ((LineIndex.ofContents contents).nearestLineEnd? target low high = none ↔
        ∀ i : Nat, low ≤ i → (i : Int) ≤ high - 1 → contents[i]? ≠ some newline) ∧
      ∀ lineEnd : Nat,
        (LineIndex.ofContents contents).nearestLineEnd? target low high = some lineEnd ↔
          ∃ i, lineEnd = i + 1 ∧ contents.NearestFeed target low high i := by
  refine ⟨LineIndex.checkedNearest_eq (LineIndex.sound_ofContents contents) .., ?_⟩
  rcases nearestLineEnd?_ofContents contents target low high with
    ⟨hnone, hempty⟩ | ⟨i, hsome, hnearest⟩
  · have hno : ∀ i : Nat, low ≤ i → (i : Int) ≤ high - 1 → contents[i]? ≠ some newline := by
      intro i hlow hhigh hfeed
      have hmem : i ∈ contents.windowFeeds low high := mem_windowFeeds.mpr ⟨hfeed, hlow, hhigh⟩
      rw [hempty] at hmem
      exact absurd hmem List.not_mem_nil
    rw [hnone, Contents.scanNearest, hempty]
    refine ⟨rfl, ⟨fun _ => hno, fun _ => rfl⟩, fun lineEnd => ⟨nofun, ?_⟩⟩
    rintro ⟨i, _, hi⟩
    exact absurd hi.feed (hno i hi.low_le hi.le_high)
  · rw [hsome, hnearest.scanNearest_eq]
    refine ⟨rfl, ⟨nofun, fun hno => ?_⟩, fun lineEnd => ⟨?_, ?_⟩⟩
    · exact absurd hnearest.feed (hno i hnearest.low_le hnearest.le_high)
    · intro heq
      exact ⟨i, (Option.some.inj heq).symm, hnearest⟩
    · rintro ⟨j, rfl, hj⟩
      rw [hnearest.unique hj]

end SyntaxChunks
