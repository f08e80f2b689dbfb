/-
# `Proofs.Lines` — line feeds in order, and what is found among them

An index is sound if its line feeds ascend and lie inside the contents; the
index of any contents is.  Over a sound index bisection finds the first line
feed from an offset on (`firstFrom_spec`), so that the line end found in a
window is that of the nearest line feed (`nearestLineEnd?_cases`), and each line
starts behind the one before (`lineStart_lt`).
-/
import Mathlib.Data.List.Sort
import SyntaxChunks.Lines

namespace SyntaxChunks.LineIndex

/-- The line feeds ascend and lie inside the contents. -/
structure Sound (index : LineIndex) : Prop where
  ascending : index.feeds.toList.Pairwise (· < ·)
  inside : ∀ f ∈ index.feeds.toList, f < index.size

/-! ## The line feeds of some bytes -/

theorem mem_feedsFrom {i : Nat} :
    ∀ {offset : Nat} {bytes : List UInt8},
      i ∈ feedsFrom offset bytes ↔ ∃ k, bytes[k]? = some newline ∧ i = offset + k
  | _, [] => by simp [feedsFrom]
  | offset, b :: bytes => by
      have hshift : i ∈ feedsFrom (offset + 1) bytes ↔
          ∃ k, (b :: bytes)[k + 1]? = some newline ∧ i = offset + (k + 1) := by
        rw [mem_feedsFrom]
        simp only [List.getElem?_cons_succ, Nat.add_assoc, Nat.add_comm 1]
      have hsplit : (∃ k, (b :: bytes)[k]? = some newline ∧ i = offset + k) ↔
          (b = newline ∧ i = offset) ∨
            ∃ k, (b :: bytes)[k + 1]? = some newline ∧ i = offset + (k + 1) := by
        constructor
        · rintro ⟨k, hk, rfl⟩
          cases k with
          | zero => exact .inl ⟨by simpa using hk, rfl⟩
          | succ k => exact .inr ⟨k, hk, rfl⟩
        · rintro (⟨rfl, rfl⟩ | ⟨k, hk, rfl⟩)
          · exact ⟨0, rfl, rfl⟩
          · exact ⟨k + 1, hk, rfl⟩
      rw [hsplit, feedsFrom]
      split
      · next hb => rw [List.mem_cons, hshift]; simp only [hb, true_and]
      · next hb => rw [hshift]; simp only [hb, false_and, false_or]

theorem feedsFrom_ascending {offset : Nat} {bytes : List UInt8} :
    (feedsFrom offset bytes).Pairwise (· < ·) := by
  induction bytes generalizing offset with
  | nil => exact .nil
  | cons b bytes ih =>
      rw [feedsFrom]
      split
      · refine .cons (fun i hi => ?_) ih
        obtain ⟨k, _, rfl⟩ := mem_feedsFrom.mp hi
        omega
      · exact ih

theorem mem_feeds_ofContents {contents : Contents} {i : Nat} :
    i ∈ (ofContents contents).feeds.toList ↔ contents[i]? = some newline := by
  simp only [ofContents, mem_feedsFrom, Nat.zero_add, exists_eq_right', Array.getElem?_toList]

theorem feed_of_getElem? {contents : Contents} {j f : Nat}
    (hf : (ofContents contents).feeds[j]? = some f) : contents[f]? = some newline := by
  rw [← Array.getElem?_toList] at hf
  exact mem_feeds_ofContents.mp (List.mem_of_getElem? hf)

theorem exists_getElem?_of_feed {contents : Contents} {f : Nat}
    (hf : contents[f]? = some newline) : ∃ j : Nat, (ofContents contents).feeds[j]? = some f := by
  obtain ⟨j, hj⟩ := List.mem_iff_getElem?.mp (mem_feeds_ofContents.mpr hf)
  rw [Array.getElem?_toList] at hj
  exact ⟨j, hj⟩

theorem sound_ofContents (contents : Contents) : (ofContents contents).Sound where
  ascending := feedsFrom_ascending
  inside := by
    intro f hf
    rw [mem_feeds_ofContents] at hf
    exact (Array.getElem?_eq_some_iff.mp hf).1

variable {index : LineIndex}

theorem Sound.lt_of_lt (h : index.Sound) {i j f g : Nat} (hf : index.feeds[i]? = some f)
    (hg : index.feeds[j]? = some g) (hij : i < j) : f < g := by
  obtain ⟨hi, rfl⟩ := Array.getElem?_eq_some_iff.mp hf
  obtain ⟨hj, rfl⟩ := Array.getElem?_eq_some_iff.mp hg
  exact List.pairwise_iff_getElem.mp h.ascending i j (by simpa using hi) (by simpa using hj) hij

theorem Sound.le_of_le (h : index.Sound) {i j f g : Nat} (hf : index.feeds[i]? = some f)
    (hg : index.feeds[j]? = some g) (hij : i ≤ j) : f ≤ g := by
  rcases Nat.eq_or_lt_of_le hij with rfl | hlt
  · rw [hf] at hg
    exact Nat.le_of_eq (Option.some.inj hg)
  · exact Nat.le_of_lt (h.lt_of_lt hf hg hlt)

theorem Sound.lt_size (h : index.Sound) {i f : Nat} (hf : index.feeds[i]? = some f) :
    f < index.size := by
  refine h.inside f ?_
  rw [← Array.getElem?_toList] at hf
  exact List.mem_of_getElem? hf

/-! ## Search -/

/-- Bisection between two positions finds where the line feeds reach the offset. -/
theorem firstFrom_spec (h : index.Sound) (offset : Int) {low high : Nat} (hle : low ≤ high)
    (hhigh : high ≤ index.feeds.size) :
    low ≤ index.firstFrom offset low high ∧ index.firstFrom offset low high ≤ high ∧
      (∀ j f, low ≤ j → j < index.firstFrom offset low high → index.feeds[j]? = some f →
        f < offset) ∧
      ∀ j f, index.firstFrom offset low high ≤ j → j < high → index.feeds[j]? = some f →
        offset ≤ f := by
  fun_induction firstFrom index offset low high with
  | case1 low high hlt middle hbefore ih =>
      obtain ⟨hlow, hupto, hbelow, habove⟩ := ih (by omega) hhigh
      refine ⟨by omega, hupto, fun j f hj hjr hf => ?_, habove⟩
      by_cases hmid : middle < j
      · exact hbelow j f hmid hjr hf
      · -- the line feeds up to the middle come before the one there
        obtain ⟨g, hg, hgo⟩ : ∃ g, index.feeds[middle]? = some g ∧ (g : Int) < offset := by
          simpa [Option.any_eq_true, Option.bind_eq_some_iff, and_assoc] using hbefore
        rcases Nat.lt_or_ge j middle with hjm | hjm
        · have := h.lt_of_lt hf hg hjm
          omega
        · have heq : j = middle := by omega
          subst heq
          rw [hf] at hg
          cases hg
          exact hgo
  | case2 low high hlt middle hbehind ih =>
      obtain ⟨hlow, hupto, hbelow, habove⟩ := ih (by omega) (by omega)
      refine ⟨hlow, by omega, hbelow, fun j f hj hjh hf => ?_⟩
      by_cases hmid : j < middle
      · exact habove j f hj hmid hf
      · have hsize : middle < index.feeds.size := by omega
        have hg : index.feeds[middle]? = some index.feeds[middle] :=
          Array.getElem?_eq_getElem hsize
        have hgo : ¬ ((index.feeds[middle] : Nat) : Int) < offset := by
          simpa [hg] using hbehind
        rcases Nat.lt_or_ge middle j with hmj | hmj
        · have := h.lt_of_lt hg hf hmj
          omega
        · have heq : j = middle := by omega
          subst heq
          rw [hf] at hg
          cases hg
          omega
  | case3 low high hge =>
      have heq : low = high := by omega
      subst heq
      exact ⟨Nat.le_refl _, Nat.le_refl _, fun j _ h₁ h₂ => by omega,
        fun j _ h₁ h₂ => by omega⟩

/-- The line feeds from the first one at `low` to the first one at `high`. -/
theorem feed_in_window (h : index.Sound) {low high : Int} {i f : Nat}
    (hfirst : index.firstFrom low 0 index.feeds.size ≤ i)
    (hpast : i < index.firstFrom high 0 index.feeds.size) (hf : index.feeds[i]? = some f) :
    low ≤ f ∧ (f : Int) < high := by
  have hi : i < index.feeds.size := (Array.getElem?_eq_some_iff.mp hf).1
  obtain ⟨_, _, _, hlow⟩ := firstFrom_spec h low (Nat.zero_le _) (Nat.le_refl _)
  obtain ⟨_, _, hhigh, _⟩ := firstFrom_spec h high (Nat.zero_le _) (Nat.le_refl _)
  exact ⟨hlow i f hfirst hi hf, hhigh i f (Nat.zero_le _) hpast hf⟩

/-- Every line feed of a window stands between the positions where the search looks. -/
theorem exists_position (h : index.Sound) {low high : Int} {f : Nat}
    (hf : f ∈ index.feeds.toList) (hlow : low ≤ f) (hhigh : (f : Int) < high) :
    ∃ i, index.firstFrom low 0 index.feeds.size ≤ i ∧
      i < index.firstFrom high 0 index.feeds.size ∧ index.feeds[i]? = some f := by
  obtain ⟨i, hi⟩ := List.mem_iff_getElem?.mp hf
  rw [Array.getElem?_toList] at hi
  have hsize : i < index.feeds.size := (Array.getElem?_eq_some_iff.mp hi).1
  obtain ⟨_, _, hbelow, _⟩ := firstFrom_spec h low (Nat.zero_le _) (Nat.le_refl _)
  obtain ⟨_, _, _, habove⟩ := firstFrom_spec h high (Nat.zero_le _) (Nat.le_refl _)
  refine ⟨i, Nat.le_of_not_lt fun hlt => ?_, Nat.lt_of_not_le fun hle => ?_, hi⟩
  · have hbefore : (f : Int) < low := hbelow i f (Nat.zero_le _) hlt hi
    omega
  · have hbehind : high ≤ (f : Int) := habove i f hle hsize hi
    omega

/-- Of the line feeds in `[low, high)` this one is nearest to the target, and the first if there are
two. -/
structure Nearest (index : LineIndex) (target low high : Int) (f : Nat) : Prop where
  feed : f ∈ index.feeds.toList
  low_le : low ≤ f
  lt_high : (f : Int) < high
  nearest : ∀ g ∈ index.feeds.toList, low ≤ g → (g : Int) < high →
    (f - target).natAbs < (g - target).natAbs ∨
      (f - target).natAbs = (g - target).natAbs ∧ f ≤ g

section

variable {target low high : Int} {first middle past : Nat}

/-- To be nearest in the window is to be nearest among the positions of the window. -/
theorem nearest_of_position (h : index.Sound)
    (hlow : index.firstFrom low 0 index.feeds.size = first)
    (hhigh : index.firstFrom high 0 index.feeds.size = past) {i f : Nat} (hfirst : first ≤ i)
    (hpast : i < past) (hf : index.feeds[i]? = some f)
    (hall : ∀ j g : Nat, first ≤ j → j < past → index.feeds[j]? = some g →
      (f - target).natAbs < (g - target).natAbs ∨
        (f - target).natAbs = (g - target).natAbs ∧ f ≤ g) :
    index.Nearest target low high f := by
  subst hlow hhigh
  obtain ⟨hin, hbelow⟩ := feed_in_window h hfirst hpast hf
  rw [← Array.getElem?_toList] at hf
  refine ⟨List.mem_of_getElem? hf, hin, hbelow, fun g hg hglow hghigh => ?_⟩
  obtain ⟨j, hj, hjpast, hjg⟩ := exists_position h hg hglow hghigh
  exact hall j g hj hjpast hjg

/-- The last line feed before the target is nearest if the one behind it is not nearer. -/
theorem nearest_before (h : index.Sound) (hlow : index.firstFrom low 0 index.feeds.size = first)
    (hhigh : index.firstFrom high 0 index.feeds.size = past) {a : Nat} (hfirst : first < middle)
    (hpast : middle ≤ past) (ha : index.feeds[middle - 1]? = some a) (hat : (a : Int) < target)
    (hother : middle = past ∨ ∃ b, index.feeds[middle]? = some b ∧ target - a ≤ b - target) :
    index.Nearest target low high a := by
  refine nearest_of_position h hlow hhigh (by omega) (by omega) ha fun j g hj hjpast hg => ?_
  rcases Nat.lt_or_ge j middle with hside | hside
  · have hga : g ≤ a := h.le_of_le hg ha (by omega)
    omega
  · obtain ⟨b, hb, hnear⟩ := hother.resolve_left (by omega)
    have hbg : b ≤ g := h.le_of_le hb hg hside
    omega

/-- The first line feed behind the target is nearest if it is nearer than the one before it. -/
theorem nearest_behind (h : index.Sound) (hlow : index.firstFrom low 0 index.feeds.size = first)
    (hhigh : index.firstFrom high 0 index.feeds.size = past) {b : Nat} (hfirst : first ≤ middle)
    (hpast : middle < past) (hb : index.feeds[middle]? = some b) (hbt : target ≤ (b : Int))
    (hother : first = middle ∨
      ∃ a, index.feeds[middle - 1]? = some a ∧ b - target < target - a) :
    index.Nearest target low high b := by
  refine nearest_of_position h hlow hhigh hfirst hpast hb fun j g hj hjpast hg => ?_
  rcases Nat.lt_or_ge j middle with hside | hside
  · obtain ⟨a, ha, hnear⟩ := hother.resolve_left (by omega)
    have hga : g ≤ a := h.le_of_le hg ha (by omega)
    omega
  · have hbg : b ≤ g := h.le_of_le hb hg hside
    omega

/-- The end of the nearest line feed is found, and nothing only where the window has none. -/
theorem nearestLineEnd?_cases (h : index.Sound) (target low high : Int) :
    (index.nearestLineEnd? target low high = none ∧
        ∀ f ∈ index.feeds.toList, low ≤ f → ¬ (f : Int) < high) ∨
      ∃ f, index.nearestLineEnd? target low high = some (f + 1) ∧
        index.Nearest target low high f := by
  have hsize := (firstFrom_spec h high (Nat.zero_le _) (Nat.le_refl _)).2.1
  unfold nearestLineEnd?
  generalize hlow : index.firstFrom low 0 index.feeds.size = first
  generalize hhigh : index.firstFrom high 0 index.feeds.size = past at hsize ⊢
  by_cases hsome : first < past
  · obtain ⟨hfirst, hpast, hbelow, habove⟩ := firstFrom_spec h target (Nat.le_of_lt hsome) hsize
    simp only [if_pos hsome]
    generalize index.firstFrom target first past = middle at hfirst hpast hbelow habove ⊢
    have hbefore : first < middle →
        ∃ a, index.feeds[middle - 1]? = some a ∧ (a : Int) < target := by
      intro hlt
      have ha := Array.getElem?_eq_getElem (show middle - 1 < index.feeds.size by omega)
      exact ⟨_, ha, hbelow _ _ (by omega) (by omega) ha⟩
    have hbehind : middle < past →
        ∃ b, index.feeds[middle]? = some b ∧ target ≤ (b : Int) := by
      intro hlt
      have hb := Array.getElem?_eq_getElem (show middle < index.feeds.size by omega)
      exact ⟨_, hb, habove _ _ (Nat.le_refl _) hlt hb⟩
    -- there are line feeds on both sides of the target, or on one
    rcases Nat.eq_or_lt_of_le hfirst with hnone | hleft
    · have hright : middle < past := by omega
      obtain ⟨b, hb, hbt⟩ := hbehind hright
      simp only [if_neg (Nat.not_lt.mpr (Nat.le_of_eq hnone.symm)), if_pos hright, hb]
      exact .inr ⟨b, rfl, nearest_behind h hlow hhigh hfirst hright hb hbt (.inl hnone)⟩
    · obtain ⟨a, ha, hat⟩ := hbefore hleft
      rcases Nat.eq_or_lt_of_le hpast with hnone | hright
      · simp only [if_pos hleft, if_neg (Nat.not_lt.mpr (Nat.le_of_eq hnone.symm)), ha]
        exact .inr ⟨a, rfl, nearest_before h hlow hhigh hleft hpast ha hat (.inl hnone)⟩
      · obtain ⟨b, hb, hbt⟩ := hbehind hright
        simp only [if_pos hleft, if_pos hright, ha, hb]
        by_cases hnear : target - a ≤ b - target
        · rw [if_pos hnear]
          exact .inr ⟨a, rfl,
            nearest_before h hlow hhigh hleft hpast ha hat (.inr ⟨b, hb, hnear⟩)⟩
        · rw [if_neg hnear]
          exact .inr ⟨b, rfl,
            nearest_behind h hlow hhigh hfirst hright hb hbt (.inr ⟨a, ha, Int.not_le.mp hnear⟩)⟩
  · refine .inl ⟨by simp only [if_neg hsome], fun f hf hflow hfhigh => ?_⟩
    obtain ⟨i, hi, hlt, _⟩ := exists_position h hf hflow hfhigh
    omega

end

theorem exists_nearest (h : index.Sound) {target low high : Int} {lineEnd : Nat}
    (hfound : index.nearestLineEnd? target low high = some lineEnd) :
    ∃ f, index.Nearest target low high f ∧ lineEnd = f + 1 := by
  rcases nearestLineEnd?_cases h target low high with ⟨hnone, _⟩ | ⟨f, hsome, hnearest⟩
  · rw [hnone] at hfound
    cases hfound
  · rw [hsome] at hfound
    exact ⟨f, hnearest, (Option.some.inj hfound).symm⟩

theorem not_feed_of_eq_none (h : index.Sound) {target low high : Int}
    (hnone : index.nearestLineEnd? target low high = none) :
    ∀ f ∈ index.feeds.toList, low ≤ f → ¬ (f : Int) < high := by
  rcases nearestLineEnd?_cases h target low high with ⟨_, hnot⟩ | ⟨f, hsome, _⟩
  · exact hnot
  · rw [hnone] at hsome
    cases hsome

/-! ## Lines -/

/-- Contents end with a line feed and have as many lines as those, or have one
line more. -/
theorem lineCount_cases (hsize : 0 < index.size) :
    (index.feeds[index.feeds.size - 1]? = some (index.size - 1) ∧
        index.lineCount = index.feeds.size) ∨
      (index.feeds[index.feeds.size - 1]? ≠ some (index.size - 1) ∧
        index.lineCount = index.feeds.size + 1) := by
  have hne : index.size ≠ 0 := by omega
  simp only [lineCount, if_neg hne, Array.back?_eq_getElem?]
  split
  · next h => exact .inl ⟨h, rfl⟩
  · next h => exact .inr ⟨h, rfl⟩

theorem lineCount_pos (hsize : 0 < index.size) : 0 < index.lineCount := by
  rcases lineCount_cases hsize with ⟨hlast, hcount⟩ | ⟨_, hcount⟩
  · have := (Array.getElem?_eq_some_iff.mp hlast).1
    omega
  · omega

theorem lineStart_zero : index.lineStart 0 = 0 := by
  simp [lineStart]

theorem lineStart_lineCount : index.lineStart index.lineCount = index.size := by
  rcases Nat.eq_zero_or_pos index.size with hsize | hsize
  · have hcount : index.lineCount = 0 := by simp [lineCount, hsize]
    rw [hcount, hsize]
    exact lineStart_zero
  · have hcount := lineCount_pos hsize
    have hpos : ¬ (index.lineCount : Int) ≤ 0 := by omega
    rw [lineStart, if_neg hpos, if_pos (Int.le_refl _)]

/-- A line between the first and the end starts behind a line feed that is not
the last byte. -/
theorem exists_lineStart_eq (h : index.Sound) {k : Nat} (hk : 0 < k) (hlt : k < index.lineCount) :
    ∃ f, index.feeds[k - 1]? = some f ∧ index.lineStart k = f + 1 ∧ f + 1 < index.size := by
  have hsize : 0 < index.size := by
    rcases Nat.eq_zero_or_pos index.size with hsize | hsize
    · simp [lineCount, hsize] at hlt
    · exact hsize
  have hcases := lineCount_cases hsize
  have hin : k - 1 < index.feeds.size := by omega
  obtain ⟨f, hf⟩ : ∃ f, index.feeds[k - 1]? = some f := ⟨_, Array.getElem?_eq_getElem hin⟩
  refine ⟨f, hf, ?_, ?_⟩
  · have hpos : ¬ (k : Int) ≤ 0 := by omega
    have hbefore : ¬ (index.lineCount : Int) ≤ k := by omega
    have hpred : ((k : Int) - 1).toNat = k - 1 := by omega
    rw [lineStart, if_neg hpos, if_neg hbefore, hpred, hf]
    rfl
  · have hsmall := h.lt_size hf
    rcases hcases with ⟨hlast, hcount⟩ | ⟨hlast, hcount⟩
    · have := h.lt_of_lt hf hlast (by omega)
      omega
    · -- the last line feed is not the last byte, and none comes behind it
      by_contra hend
      have heq : f = index.size - 1 := by omega
      rcases Nat.lt_or_ge (k - 1) (index.feeds.size - 1) with hk' | hk'
      · have hg := Array.getElem?_eq_getElem (show index.feeds.size - 1 < index.feeds.size by omega)
        have := h.lt_of_lt hf hg hk'
        have := h.lt_size hg
        omega
      · have hidx : k - 1 = index.feeds.size - 1 := by omega
        rw [hidx, heq] at hf
        exact hlast hf

/-- Behind every line feed a line starts, or the contents end. -/
theorem lineStart_of_feed (h : index.Sound) {j f : Nat} (hf : index.feeds[j]? = some f) :
    index.lineStart (j + 1 : Nat) = f + 1 := by
  have hj := (Array.getElem?_eq_some_iff.mp hf).1
  have hsize : 0 < index.size := Nat.zero_lt_of_lt (h.lt_size hf)
  by_cases hlt : j + 1 < index.lineCount
  · obtain ⟨g, hg, hstart, _⟩ := exists_lineStart_eq h (show 0 < j + 1 by omega) hlt
    rw [Nat.add_sub_cancel, hf] at hg
    cases hg
    exact hstart
  · -- the last line feed is the last byte, else a line would start behind it
    rcases lineCount_cases hsize with ⟨hlast, hcount⟩ | ⟨_, hcount⟩
    · have hend : j + 1 = index.lineCount := by omega
      have hidx : index.feeds.size - 1 = j := by omega
      rw [hidx, hf] at hlast
      rw [hend, lineStart_lineCount]
      have heq : f = index.size - 1 := Option.some.inj hlast
      omega
    · omega

/-- Each line starts behind the ones before it. -/
theorem lineStart_lt (h : index.Sound) {i j : Nat} (hij : i < j) (hj : j ≤ index.lineCount) :
    index.lineStart i < index.lineStart j := by
  have hend : j = index.lineCount → index.lineStart j = index.size := by
    rintro rfl
    exact lineStart_lineCount
  have hsize : 0 < index.size := by
    rcases Nat.eq_zero_or_pos index.size with hsize | hsize
    · simp only [lineCount, hsize, if_true] at hj
      omega
    · exact hsize
  rcases Nat.eq_zero_or_pos i with rfl | hi
  · rw [Int.natCast_zero, lineStart_zero]
    rcases Nat.eq_or_lt_of_le hj with heq | hlt
    · rw [hend heq]
      exact hsize
    · obtain ⟨g, _, hg, _⟩ := exists_lineStart_eq h hij hlt
      omega
  · obtain ⟨f, hf, hstart, hfsize⟩ := exists_lineStart_eq h hi (by omega)
    rcases Nat.eq_or_lt_of_le hj with heq | hlt
    · rw [hend heq]
      omega
    · obtain ⟨g, hg, hstart', _⟩ := exists_lineStart_eq h (by omega) hlt
      have := h.lt_of_lt hf hg (by omega)
      omega

theorem lineStart_le (h : index.Sound) {i j : Nat} (hij : i ≤ j) (hj : j ≤ index.lineCount) :
    index.lineStart i ≤ index.lineStart j := by
  rcases Nat.eq_or_lt_of_le hij with rfl | hlt
  · exact Nat.le_refl _
  · exact Nat.le_of_lt (lineStart_lt h hlt hj)

theorem lineStart_le_size (h : index.Sound) {j : Nat} (hj : j ≤ index.lineCount) :
    index.lineStart j ≤ index.size := by
  have hle := lineStart_le h hj (Nat.le_refl _)
  rwa [lineStart_lineCount] at hle

/-! ## Points -/

/-- Every offset up to the end has a point. -/
theorem exists_pointAt {offset : Int} (hlow : 0 ≤ offset) (hhigh : offset ≤ index.size) :
    ∃ p, index.pointAt offset = .ok p := by
  have hin : ¬ (offset < 0 ∨ index.size < offset) := by omega
  simp only [pointAt, if_neg hin]
  split
  · exact ⟨_, rfl⟩
  · exact ⟨_, rfl⟩

end SyntaxChunks.LineIndex
