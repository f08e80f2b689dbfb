/-
# `Proofs.Hints` — an extension changes the order, and forces nothing

An entry that is skipped has no part in the outcome, wherever it stands
(`outcomeOf_middle`), so a hint at such an entry is as good as none.  Whether a
tree is found at all depends on the entries and not on their order
(`Trace.found_iff`), as long as no provider crashes: a crash ends the run, and
an entry that stands before it in one order may stand behind it in another.
-/
import SyntaxChunks.Proofs.Chunking
import SyntaxChunks.Proofs.Selection

namespace SyntaxChunks

open Number (Binary64)

/-! ## Entries that are skipped -/

section

variable {grammars : Grammars} {contents : Contents} {timeout : Option Binary64}

theorem outcomeOf_cons_of_skips {e : Entry} (h : e.Skips (e.reply grammars contents timeout))
    (rest : List Entry) :
    outcomeOf (attemptsWith grammars contents timeout (e :: rest))
      = outcomeOf (attemptsWith grammars contents timeout rest) := by
  have hgoes : (e.attempt grammars contents timeout).verdict.isFinal = false := h.isFinal
  rw [attemptsWith]
  simp only [hgoes, Bool.false_eq_true, if_false]
  exact outcomeOf_cons hgoes _

theorem outcomeOf_cons_of_decides {e : Entry} {outcome : Except Crash (Option (Node × Text))}
    (h : e.Decides (e.reply grammars contents timeout) outcome) (rest : List Entry) :
    outcomeOf (attemptsWith grammars contents timeout (e :: rest)) = outcome := by
  have hends : (e.attempt grammars contents timeout).verdict.isFinal = true := h.isFinal
  rw [attemptsWith]
  simp only [hends, if_true]
  exact h.outcomeOf_eq _

/-- An entry that is skipped may as well not be there. -/
theorem outcomeOf_middle {e : Entry} (h : e.Skips (e.reply grammars contents timeout))
    (after : List Entry) :
    ∀ before : List Entry,
      outcomeOf (attemptsWith grammars contents timeout (before ++ e :: after))
        = outcomeOf (attemptsWith grammars contents timeout (before ++ after))
  | [] => outcomeOf_cons_of_skips h after
  | b :: before => by
      rw [List.cons_append, List.cons_append]
      rcases b.skips_or_decides (b.reply grammars contents timeout) with hskip | ⟨_, hdecides⟩
      · rw [outcomeOf_cons_of_skips hskip, outcomeOf_cons_of_skips hskip,
          outcomeOf_middle h after before]
      · rw [outcomeOf_cons_of_decides hdecides, outcomeOf_cons_of_decides hdecides]

end

/-! ## Entries that are not -/

theorem Entry.Decides.not_skips {e : Entry} {r : Reply}
    {outcome : Except Crash (Option (Node × Text))} (h : e.Decides r outcome) : ¬ e.Skips r := by
  intro hskip
  have hfinal := h.isFinal
  rw [hskip.isFinal] at hfinal
  cases hfinal

theorem Entry.Decides.eq_crashed {e : Entry} {r : Reply} {crash : Crash}
    (h : e.Decides r (.error crash)) : r = .crashed crash := by
  cases h
  rfl

section

variable {reply : Entry → Reply} {order tried : List Entry}
  {outcome : Except Crash (Option (Node × Text))}

/-- What comes of a run that finds something or crashes was decided by one of the entries. -/
theorem Trace.exists_decides (h : Trace reply order tried outcome) (hne : outcome ≠ .ok none) :
    ∃ e ∈ order, e.Decides (reply e) outcome := by
  cases h with
  | exhausted _ => exact absurd rfl hne
  | @decided front rest e _ horder _ hdecides =>
      exact ⟨e, horder ▸ List.mem_append_right front List.mem_cons_self, hdecides⟩

theorem Trace.exists_ok (h : Trace reply order tried outcome)
    (hcalm : ∀ e ∈ order, ∀ crash, reply e ≠ .crashed crash) : ∃ result, outcome = .ok result := by
  cases outcome with
  | ok result => exact ⟨result, rfl⟩
  | error crash =>
      obtain ⟨e, he, hdecides⟩ := h.exists_decides nofun
      exact absurd hdecides.eq_crashed (hcalm e he crash)

/-- Without crashes, a tree is found exactly if not all entries are skipped. -/
theorem Trace.found_iff (h : Trace reply order tried outcome)
    (hcalm : ∀ e ∈ order, ∀ crash, reply e ≠ .crashed crash) :
    (∃ found, outcome = .ok (some found)) ↔ ∃ e ∈ order, ¬ e.Skips (reply e) := by
  obtain ⟨result, hresult⟩ := h.exists_ok hcalm
  constructor
  · rintro ⟨found, rfl⟩
    obtain ⟨e, he, hdecides⟩ := h.exists_decides nofun
    exact ⟨e, he, hdecides.not_skips⟩
  · rintro ⟨e, he, hgoes⟩
    cases result with
    | none =>
        obtain ⟨htried, hskip⟩ := h.eq_none_iff.mp hresult
        exact absurd (hskip e (htried ▸ he)) hgoes
    | some found => exact ⟨found, hresult⟩

end

/-! ## Hints -/

section

variable {grammars : Grammars} {registry : Registry} {contents : Contents}
  {timeout : Option Binary64}

/-- Without an extension the registry's own order stands. -/
theorem prioritized_none (registry : Registry) : registry.prioritized none = registry.entries := rfl

theorem prioritized_of_entryFor? {x : Option Text} {hinted : Entry}
    (h : registry.entryFor? x = some hinted) :
    ∃ before after, registry.entries = before ++ hinted :: after ∧
      registry.prioritized x = hinted :: (before ++ after) := by
  obtain ⟨_, before, after, hsplit, _⟩ := entryFor?_eq_some h
  have hnodup := registry.names_nodup
  rw [hsplit] at hnodup
  refine ⟨before, after, hsplit, ?_⟩
  unfold Registry.prioritized
  simp only [h, hsplit, filter_name_ne hnodup]

/-- A hint at an entry that is skipped, or at none, leaves the outcome of the registry's own
order. -/
theorem outcomeOf_prioritized {x : Option Text}
    (h : ∀ hinted, registry.entryFor? x = some hinted →
      hinted.Skips (hinted.reply grammars contents timeout)) :
    outcomeOf (attemptsWith grammars contents timeout (registry.prioritized x))
      = outcomeOf (attemptsWith grammars contents timeout registry.entries) := by
  cases hentry : registry.entryFor? x with
  | none =>
      unfold Registry.prioritized
      rw [hentry]
  | some hinted =>
      obtain ⟨before, after, hsplit, horder⟩ := prioritized_of_entryFor? hentry
      have hskip := h hinted hentry
      rw [horder, hsplit, outcomeOf_cons_of_skips hskip, outcomeOf_middle hskip]

theorem exists_trace_select (grammars : Grammars) (registry : Registry)
    (timeout : Option Binary64) (d : Document) :
    ∃ tried, Trace (Entry.reply grammars d.contents timeout) (registry.prioritized d.extension)
      tried (select grammars registry timeout d) := by
  obtain ⟨tried, _, htrace⟩ := attemptsWith_trace (registry.prioritized d.extension)
  exact ⟨tried, htrace⟩

theorem mem_prioritized {x : Option Text} {e : Entry} :
    e ∈ registry.prioritized x ↔ e ∈ registry.entries :=
  (prioritized_promoted registry x).perm.mem_iff

/-- A document's extension has no say in whether a tree is found. -/
theorem select_found_iff {d : Document}
    (hcalm : ∀ e ∈ registry.entries, ∀ crash,
      e.reply grammars d.contents timeout ≠ .crashed crash) :
    (∃ found, select grammars registry timeout d = .ok (some found)) ↔
      ∃ e ∈ registry.entries, ¬ e.Skips (e.reply grammars d.contents timeout) := by
  obtain ⟨tried, htrace⟩ := exists_trace_select grammars registry timeout d
  rw [htrace.found_iff fun e he => hcalm e (mem_prioritized.mp he)]
  simp only [mem_prioritized]

/-- If no provider crashes on the contents, selection comes to an end with or without a tree, and
with one under any two hints alike.  A hint at an entry that is skipped, or that no entry claims,
gives the tree and the language that are found without a hint. -/
theorem hint_never_forces (d : Document)
    (hcalm : ∀ e ∈ registry.entries, ∀ crash,
      e.reply grammars d.contents timeout ≠ .crashed crash) :
    (∀ x : Option Text, ∃ result,
      select grammars registry timeout { d with extension := x } = .ok result) ∧
    (∀ x y : Option Text,
      (∃ found, select grammars registry timeout { d with extension := x } = .ok (some found)) ↔
        ∃ found, select grammars registry timeout { d with extension := y } = .ok (some found)) ∧
    ∀ x : Option Text,
      (∀ hinted, registry.entryFor? x = some hinted →
        hinted.Skips (hinted.reply grammars d.contents timeout)) →
      select grammars registry timeout { d with extension := x }
        = select grammars registry timeout { d with extension := none } := by
  refine ⟨fun x => ?_, fun x y => ?_, fun x hskip => ?_⟩
  · obtain ⟨tried, htrace⟩ :=
      exists_trace_select grammars registry timeout { d with extension := x }
    exact htrace.exists_ok fun e he => hcalm e (mem_prioritized.mp he)
  · rw [select_found_iff (d := { d with extension := x }) hcalm,
      select_found_iff (d := { d with extension := y }) hcalm]
  · have hsame := outcomeOf_prioritized hskip
    rw [← prioritized_none registry] at hsame
    exact hsame

end

/-- Three languages: one that reads nothing in time, and two that read everything. -/
def hintedRegistry : Registry where
  entries :=
    [⟨"slow", .direct fun _ _ => .failed true "too slow", ["s"], .both⟩,
      ⟨"wide", .direct fun _ _ => .tree (some ⟨"all", 0, 1, false, []⟩), ["w"], .both⟩,
      ⟨"late", .direct fun _ _ => .tree (some ⟨"any", 0, 1, false, []⟩), ["l"], .both⟩]
  names_nodup := by decide

theorem hint_never_forces_slow :
    (∀ e ∈ hintedRegistry.entries, ∀ crash, e.reply noGrammars #[120] none ≠ .crashed crash) ∧
    (∀ hinted, hintedRegistry.entryFor? (some "s") = some hinted →
      hinted.Skips (hinted.reply noGrammars #[120] none)) ∧
    select noGrammars hintedRegistry none ⟨#[120], some "s", "x.s"⟩
      = select noGrammars hintedRegistry none ⟨#[120], none, "x.s"⟩ ∧
    ((∃ found, select noGrammars hintedRegistry none ⟨#[120], some "l", "x.s"⟩
        = .ok (some found)) ↔
      ∃ found, select noGrammars hintedRegistry none ⟨#[120], some "w", "x.s"⟩
        = .ok (some found)) := by
  have hcalm : ∀ e ∈ hintedRegistry.entries, ∀ crash,
      e.reply noGrammars #[120] none ≠ .crashed crash := by
    simp [hintedRegistry, Entry.reply, Provider.parse]
  have hkey : extensionKey? (some "s") = some "s" := by decide +kernel
  have hskip : ∀ hinted, hintedRegistry.entryFor? (some "s") = some hinted →
      hinted.Skips (hinted.reply noGrammars #[120] none) := by
    intro hinted hhinted
    rw [Registry.entryFor?, hkey] at hhinted
    cases hhinted
    exact .failed true "too slow"
  obtain ⟨_, hfound, hsame⟩ := hint_never_forces ⟨#[120], none, "x.s"⟩ hcalm
  exact ⟨hcalm, hskip, hsame (some "s") hskip, hfound (some "l") (some "w")⟩

end SyntaxChunks
