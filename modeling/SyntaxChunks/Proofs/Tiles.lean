/-
# `Proofs.Tiles` — spans that tile a range, and why `tile` makes them

`Tiles a b spans` says that the spans are non-empty and follow one another
without a gap from `a` to `b`; `InOrder a b spans` allows gaps and empty spans.

* `tile_tiles` — whatever the given spans are, `tile` tiles the range.
* `ends_tile` — it does so with no other ends than given ones.
* `tile_eq_stretch` — spans in order are kept one by one, each stretched to the
  start of the next.
* `Tiles.flatMap_slice` — the slices of a tiling add up to the range.
-/
import Mathlib.Data.List.Chain
import SyntaxChunks.Contents
import SyntaxChunks.Tiling

namespace SyntaxChunks

/-- The spans are non-empty and follow one another from `a` to `b`. -/
inductive Tiles : Int → Int → List Span → Prop
  | nil {a : Int} : Tiles a a []
  | cons {a m b : Int} {rest : List Span} : a < m → Tiles m b rest → Tiles a b (⟨a, m⟩ :: rest)

/-- The spans follow one another inside `[a, b]`, possibly with gaps. -/
inductive InOrder : Int → Int → List Span → Prop
  | nil {a b : Int} : a ≤ b → InOrder a b []
  | cons {a b : Int} {s : Span} {rest : List Span} : a ≤ s.start → s.start ≤ s.stop →
      InOrder s.stop b rest → InOrder a b (s :: rest)

/-- The offset is that of a byte of the span. -/
def Span.Holds (s : Span) (i : Int) : Prop :=
  s.start ≤ i ∧ i < s.stop

/-- Both ends of the span have the property. -/
def Span.Ends (P : Int → Prop) (s : Span) : Prop :=
  P s.start ∧ P s.stop

@[simp] theorem Span.isEmpty_iff {s : Span} : s.isEmpty = true ↔ s.stop ≤ s.start := by
  simp [Span.isEmpty]

@[simp] theorem Span.isEmpty_eq_false_iff {s : Span} : s.isEmpty = false ↔ s.start < s.stop := by
  rw [Bool.eq_false_iff, ne_eq, Span.isEmpty_iff, Int.not_le]

/-! ## Tilings -/

namespace Tiles

theorem le {a b : Int} {spans : List Span} (h : Tiles a b spans) : a ≤ b := by
  induction h with
  | nil => exact Int.le_refl _
  | cons hlt _ ih => omega

theorem single {a b : Int} (h : a < b) : Tiles a b [⟨a, b⟩] :=
  .cons h .nil

theorem eq_of_nil {a b : Int} (h : Tiles a b []) : a = b := by
  cases h; rfl

theorem cons_iff {a b : Int} {s : Span} {rest : List Span} :
    Tiles a b (s :: rest) ↔ s.start = a ∧ a < s.stop ∧ Tiles s.stop b rest := by
  constructor
  · intro h
    cases h with
    | cons hlt hrest => exact ⟨rfl, hlt, hrest⟩
  · rintro ⟨rfl, hlt, hrest⟩
    exact .cons hlt hrest

theorem append_inv {b : Int} {ys : List Span} :
    ∀ {xs : List Span} {a : Int}, Tiles a b (xs ++ ys) → ∃ m, Tiles a m xs ∧ Tiles m b ys
  | [], a, h => ⟨a, .nil, h⟩
  | s :: xs, a, h => by
      obtain ⟨rfl, hlt, hrest⟩ := cons_iff.mp h
      obtain ⟨m, hx, hy⟩ := append_inv hrest
      exact ⟨m, .cons hlt hx, hy⟩

theorem nonempty {a b : Int} {spans : List Span} (h : Tiles a b spans) :
    ∀ s ∈ spans, s.start < s.stop := by
  induction h with
  | nil => exact fun _ hs => absurd hs List.not_mem_nil
  | cons hlt _ ih =>
      intro s hs
      rcases List.mem_cons.mp hs with rfl | hs
      · exact hlt
      · exact ih s hs

theorem bounds {a b : Int} {spans : List Span} (h : Tiles a b spans) :
    ∀ s ∈ spans, a ≤ s.start ∧ s.stop ≤ b := by
  induction h with
  | nil => exact fun _ hs => absurd hs List.not_mem_nil
  | cons hlt hrest ih =>
      intro s hs
      have hle := hrest.le
      rcases List.mem_cons.mp hs with rfl | hs
      · exact ⟨Int.le_refl _, hle⟩
      · have := ih s hs
        omega

theorem inOrder {a b : Int} {spans : List Span} (h : Tiles a b spans) : InOrder a b spans := by
  induction h with
  | nil => exact .nil (Int.le_refl _)
  | cons hlt _ ih => exact .cons (Int.le_refl _) (Int.le_of_lt hlt) ih

/-- Every offset of the range lies in a span. -/
theorem exists_holds {a b i : Int} {spans : List Span} (h : Tiles a b spans) (ha : a ≤ i)
    (hb : i < b) : ∃ s ∈ spans, s.Holds i := by
  induction h with
  | nil => omega
  | @cons a m b rest hlt _ ih =>
      by_cases hm : i < m
      · exact ⟨⟨a, m⟩, List.mem_cons_self, ha, hm⟩
      · obtain ⟨s, hs, hi⟩ := ih (by omega) hb
        exact ⟨s, List.mem_cons_of_mem _ hs, hi⟩

/-- Only the last span ends where the range does. -/
theorem stop_lt {a b : Int} {spans : List Span} (h : Tiles a b spans) :
    ∀ s ∈ spans.dropLast, s.stop < b := by
  induction h with
  | nil => exact fun _ hs => absurd hs List.not_mem_nil
  | @cons a m b rest _ hrest ih =>
      intro s hs
      cases hrest with
      | nil => exact absurd hs List.not_mem_nil
      | cons hlt hrest =>
          rcases List.mem_cons.mp hs with rfl | hs
          · exact Int.lt_of_lt_of_le hlt hrest.le
          · exact ih s hs

/-- Each span ends where the next one starts. -/
theorem isChain {a b : Int} {spans : List Span} (h : Tiles a b spans) :
    spans.IsChain fun s t => s.stop = t.start := by
  induction h with
  | nil => exact .nil
  | cons _ hrest ih =>
      cases hrest with
      | nil => exact .singleton _
      | cons hlt hrest => exact .cons_cons rfl ih

end Tiles

/-! ## Spans in order -/

namespace InOrder

theorem le {a b : Int} {spans : List Span} (h : InOrder a b spans) : a ≤ b := by
  induction h with
  | nil hle => exact hle
  | cons => omega

theorem weaken {a a' b b' : Int} {spans : List Span} (h : InOrder a b spans) (ha : a' ≤ a)
    (hb : b ≤ b') : InOrder a' b' spans := by
  induction h generalizing a' with
  | nil hle => exact .nil (by omega)
  | cons hle hs _ ih => exact .cons (by omega) hs (ih (Int.le_refl _) hb)

theorem append {a m b : Int} {xs ys : List Span} (hx : InOrder a m xs) (hy : InOrder m b ys) :
    InOrder a b (xs ++ ys) := by
  induction hx with
  | nil hle => exact hy.weaken hle (Int.le_refl _)
  | cons hle hs _ ih => exact .cons hle hs (ih hy)

theorem append_inv {b : Int} {ys : List Span} :
    ∀ {xs : List Span} {a : Int}, InOrder a b (xs ++ ys) → ∃ m, InOrder a m xs ∧ InOrder m b ys
  | [], a, h => ⟨a, .nil (Int.le_refl _), h⟩
  | _ :: _, _, .cons hle hs hrest => by
      obtain ⟨m, hx, hy⟩ := append_inv hrest
      exact ⟨m, .cons hle hs hx, hy⟩

theorem bounds {a b : Int} {spans : List Span} (h : InOrder a b spans) :
    ∀ s ∈ spans, a ≤ s.start ∧ s.start ≤ s.stop ∧ s.stop ≤ b := by
  induction h with
  | nil => exact fun _ hs => absurd hs List.not_mem_nil
  | cons hle hs hrest ih =>
      intro t ht
      rcases List.mem_cons.mp ht with rfl | ht
      · exact ⟨hle, hs, hrest.le⟩
      · have := ih t ht
        omega

/-- Each span ends before all later ones start. -/
theorem pairwise {a b : Int} {spans : List Span} (h : InOrder a b spans) :
    spans.Pairwise fun s t => s.stop ≤ t.start := by
  induction h with
  | nil => exact .nil
  | cons _ _ hrest ih => exact .cons (fun t ht => (hrest.bounds t ht).1) ih

/-- No offset lies in two of the spans. -/
theorem eq_of_holds {a b x : Int} {spans : List Span} (h : InOrder a b spans)
    {i j : Fin spans.length} (hi : (spans.get i).Holds x) (hj : (spans.get j).Holds x) : i = j := by
  have hbefore := List.pairwise_iff_get.mp h.pairwise
  obtain ⟨hi_start, hi_stop⟩ := hi
  obtain ⟨hj_start, hj_stop⟩ := hj
  rcases Nat.lt_trichotomy i j with hlt | heq | hlt
  · have hij := hbefore i j hlt
    omega
  · exact Fin.ext heq
  · have hji := hbefore j i hlt
    omega

/-- Of two spans the one that starts first ends before the other starts. -/
theorem stop_le_start {a b : Int} {spans : List Span} (h : InOrder a b spans) {s t : Span}
    (hs : s ∈ spans) (ht : t ∈ spans) (hlt : s.start < t.start) : s.stop ≤ t.start := by
  induction h with
  | nil => exact absurd hs List.not_mem_nil
  | @cons a b u rest _ hu hrest ih =>
      have hlater := hrest.bounds
      rcases List.mem_cons.mp hs with rfl | hsrest
      · rcases List.mem_cons.mp ht with rfl | htrest
        · omega
        · exact (hlater t htrest).1
      · rcases List.mem_cons.mp ht with rfl | htrest
        · have := hlater s hsrest
          omega
        · exact ih hsrest htrest

theorem filter {a b : Int} {spans : List Span} (h : InOrder a b spans) (p : Span → Bool) :
    InOrder a b (spans.filter p) := by
  induction h with
  | nil hle => exact .nil hle
  | @cons a b s rest hle hs _ ih =>
      by_cases hp : p s = true
      · rw [List.filter_cons_of_pos hp]
        exact .cons hle hs ih
      · rw [List.filter_cons_of_neg hp]
        exact ih.weaken (by omega) (Int.le_refl _)

/-- Spans are in order if they lie in the range and each before all later ones. -/
theorem of_pairwise {b : Int} :
    ∀ {a : Int} {spans : List Span}, a ≤ b →
      (∀ s ∈ spans, a ≤ s.start ∧ s.start ≤ s.stop ∧ s.stop ≤ b) →
      (spans.Pairwise fun s t => s.stop ≤ t.start) → InOrder a b spans
  | _, [], hab, _, _ => .nil hab
  | a, s :: rest, _, hin, hpair => by
      obtain ⟨hfirst, hlater⟩ := List.pairwise_cons.mp hpair
      obtain ⟨hle, hs, hstop⟩ := hin s List.mem_cons_self
      refine .cons hle hs (of_pairwise hstop (fun t ht => ?_) hlater)
      exact ⟨hfirst t ht, (hin t (List.mem_cons_of_mem _ ht)).2⟩

end InOrder

/-! ## Making a tiling -/

theorem tileFrom_tiles {stop : Int} :
    ∀ {left : Int} (cuts : List Int), left ≤ stop →
      Tiles left stop (tileFrom left stop (cuts ++ [stop]))
  | left, [], h => by
      by_cases hlt : left < stop
      · have hcut : min (max stop left) stop = stop := by omega
        simp only [List.nil_append, tileFrom, hcut, if_pos hlt]
        exact .single hlt
      · have heq : left = stop := by omega
        subst heq
        simp [tileFrom, Tiles.nil]
  | left, c :: cuts, h => by
      simp only [List.cons_append, tileFrom]
      split
      · next hlt => exact .cons hlt (tileFrom_tiles cuts (by omega))
      · exact tileFrom_tiles cuts h

/-- Whatever the spans are, they are made to tile the range. -/
theorem tile_tiles (spans : List Span) {start stop : Int} (h : start ≤ stop) :
    Tiles start stop (tile spans start stop) := by
  unfold tile
  split
  · next hle =>
      have heq : start = stop := by omega
      subst heq
      exact .nil
  · next hlt =>
      split
      · exact .single (by omega)
      · exact tileFrom_tiles _ h

/-- The ends of the tiles are the ends of the range and cuts. -/
theorem ends_tileFrom {P : Int → Prop} {stop : Int} (hstop : P stop) :
    ∀ {left : Int} {cuts : List Int}, P left → (∀ c ∈ cuts, P c) →
      ∀ s ∈ tileFrom left stop cuts, s.Ends P
  | _, [], _, _, _, hs => absurd hs List.not_mem_nil
  | left, c :: cuts, hleft, hcuts, s, hs => by
      have hrest : ∀ x ∈ cuts, P x := fun x hx => hcuts x (List.mem_cons_of_mem _ hx)
      simp only [tileFrom] at hs
      split at hs
      · next hlt =>
          -- a cut that advances is either the given one or the end of the range
          have hcut : P (min (max c left) stop) := by
            by_cases hc : c ≤ stop
            · have heq : min (max c left) stop = c := by omega
              rw [heq]
              exact hcuts c List.mem_cons_self
            · have heq : min (max c left) stop = stop := by omega
              rw [heq]
              exact hstop
          rcases List.mem_cons.mp hs with rfl | hs
          · exact ⟨hleft, hcut⟩
          · exact ends_tileFrom hstop hcut hrest s hs
      · exact ends_tileFrom hstop hleft hrest s hs

theorem ends_tile {P : Int → Prop} {spans : List Span} {start stop : Int} (hstart : P start)
    (hstop : P stop) (hspans : ∀ s ∈ spans.tail, P s.start) :
    ∀ s ∈ tile spans start stop, s.Ends P := by
  intro s hs
  unfold tile at hs
  split at hs
  · exact absurd hs List.not_mem_nil
  · split at hs
    · rw [List.mem_singleton.mp hs]
      exact ⟨hstart, hstop⟩
    · refine ends_tileFrom hstop hstart (fun c hc => ?_) s hs
      rcases List.mem_append.mp hc with hc | hc
      · obtain ⟨t, ht, rfl⟩ := List.mem_map.mp hc
        exact hspans t (List.drop_one ▸ ht)
      · rw [List.mem_singleton.mp hc]
        exact hstop

/-! ## Spans in order are kept -/

/-- The first span stretched back to `left`, and every span stretched to the
start of the next one, the last to `stop`. -/
def stretch (left stop : Int) : List Span → List Span
  | [] => []
  | [_] => [⟨left, stop⟩]
  | _ :: t :: rest => ⟨left, t.start⟩ :: stretch t.start stop (t :: rest)

theorem tileFrom_eq_stretch {stop : Int} :
    ∀ {left : Int} {s : Span} {rest : List Span}, InOrder left stop (s :: rest) →
      (∀ t ∈ s :: rest, t.start < t.stop) →
      tileFrom left stop (rest.map Span.start ++ [stop]) = stretch left stop (s :: rest)
  | left, s, [], .cons hle _ hnil, hne => by
      have hs := hne s List.mem_cons_self
      have hstop := hnil.le
      have hcut : min (max stop left) stop = stop := by omega
      have hlt : left < stop := by omega
      simp only [List.map_nil, List.nil_append, tileFrom, stretch, hcut, if_pos hlt]
  | left, s, t :: rest, .cons hle _ hrest, hne => by
      have hs := hne s List.mem_cons_self
      have ht := hrest.bounds t List.mem_cons_self
      have hcut : min (max t.start left) stop = t.start := by omega
      have hlt : left < t.start := by omega
      cases hrest with
      | cons hst htt hrest =>
          have ih := tileFrom_eq_stretch (.cons (Int.le_refl _) htt hrest)
            fun u hu => hne u (List.mem_cons_of_mem _ hu)
          simp only [List.map_cons, List.cons_append, tileFrom, stretch, hcut, if_pos hlt, ih]

/-- Non-empty spans in order are stretched, and none is dropped. -/
theorem tile_eq_stretch {spans : List Span} {start stop : Int} (h : InOrder start stop spans)
    (hne : ∀ s ∈ spans, s.start < s.stop) (hnil : spans ≠ []) :
    tile spans start stop = stretch start stop spans := by
  cases spans with
  | nil => exact absurd rfl hnil
  | cons s rest =>
      have hs := h.bounds s List.mem_cons_self
      have hlt := hne s List.mem_cons_self
      have hrange : ¬ stop ≤ start := by omega
      simp only [tile, if_neg hrange, List.isEmpty_cons, Bool.false_eq_true, if_false,
        List.drop_succ_cons, List.drop_zero]
      exact tileFrom_eq_stretch h hne

/-- A stretched span holds the span it was made of, and of the others nothing. -/
theorem stretch_around {stop : Int} :
    ∀ {left : Int} {spans : List Span}, InOrder left stop spans →
      ∀ t ∈ stretch left stop spans, left ≤ t.start ∧ ∃ s ∈ spans,
        t.start ≤ s.start ∧ s.stop ≤ t.stop ∧ ∀ i, t.Holds i → ∀ r ∈ spans, r.Holds i → s.Holds i
  | _, [], _, _, ht => absurd ht List.not_mem_nil
  | left, [s], .cons hle _ hnil, t, ht => by
      rw [stretch, List.mem_singleton] at ht
      subst ht
      refine ⟨Int.le_refl _, s, List.mem_cons_self, hle, hnil.le, fun i _ r hr hi => ?_⟩
      rw [List.mem_singleton.mp hr] at hi
      exact hi
  | left, s :: u :: rest, .cons hle hs hrest, t, ht => by
      cases hrest with
      | cons hsu huu hrest =>
          rw [stretch, List.mem_cons] at ht
          rcases ht with rfl | ht
          · refine ⟨Int.le_refl _, s, List.mem_cons_self, hle, hsu, fun i hi r hr hri => ?_⟩
            rcases List.mem_cons.mp hr with rfl | hr
            · exact hri
            · have hr' := (InOrder.cons (Int.le_refl _) huu hrest).bounds r hr
              have h₁ : i < u.start := hi.2
              have h₂ : r.start ≤ i := hri.1
              omega
          · have hur : InOrder u.start stop (u :: rest) := .cons (Int.le_refl _) huu hrest
            obtain ⟨hut, v, hv, h₁, h₂, hother⟩ := stretch_around hur t ht
            refine ⟨by omega, v, List.mem_cons_of_mem _ hv, h₁, h₂, fun i hi r hr hri => ?_⟩
            rcases List.mem_cons.mp hr with rfl | hr
            · -- the span before all of these ends where they begin
              have h₃ : t.start ≤ i := hi.1
              have h₄ : i < r.stop := hri.2
              omega
            · exact hother i hi r hr hri

/-! ## Slices -/

/-- Inside the contents a slice is what lies between its ends. -/
theorem toList_slice {contents : Contents} {a b : Int} (ha : 0 ≤ a) (hab : a ≤ b)
    (hb : b ≤ contents.size) :
    (contents.slice a b).toList = (contents.toList.drop a.toNat).take (b.toNat - a.toNat) := by
  have hplace : ∀ c : Int, 0 ≤ c → c ≤ contents.size →
      Contents.place contents.size c = c.toNat := by
    intro c hc hsize
    unfold Contents.place
    split <;> omega
  rw [Contents.slice, hplace a ha (by omega), hplace b (by omega) hb, Array.toList_extract,
    List.extract_eq_take_drop]

theorem slice_append_slice {contents : Contents} {a m b : Int} (ha : 0 ≤ a) (ham : a ≤ m)
    (hmb : m ≤ b) (hb : b ≤ contents.size) :
    (contents.slice a m).toList ++ (contents.slice m b).toList = (contents.slice a b).toList := by
  rw [toList_slice ha ham (by omega), toList_slice (by omega) hmb hb,
    toList_slice ha (by omega) hb]
  have hsplit : b.toNat - a.toNat = (m.toNat - a.toNat) + (b.toNat - m.toNat) := by omega
  have hdrop : a.toNat + (m.toNat - a.toNat) = m.toNat := by omega
  rw [hsplit, List.take_add, List.drop_drop, hdrop]

/-- The slices of a tiling add up to the slice of the range. -/
theorem Tiles.flatMap_slice {contents : Contents} {a b : Int} {spans : List Span}
    (h : Tiles a b spans) (ha : 0 ≤ a) (hb : b ≤ contents.size) :
    (spans.flatMap fun s => (contents.slice s.start s.stop).toList)
      = (contents.slice a b).toList := by
  induction h with
  | nil => simp [Contents.slice]
  | @cons a m b rest hlt hrest ih =>
      rw [List.flatMap_cons, ih (by omega) hb]
      exact slice_append_slice ha (Int.le_of_lt hlt) hrest.le hb

theorem slice_all (contents : Contents) : contents.slice 0 contents.size = contents := by
  have hsize : ¬ (contents.size : Int) < 0 := by omega
  simp [Contents.slice, Contents.place, hsize]

end SyntaxChunks
