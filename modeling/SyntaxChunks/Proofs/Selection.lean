/-
# `Proofs.Selection` — which languages are tried, and what comes of it

The order of a registry's entries for a document is that of the registry with
the first entry that claims the document's extension moved to the front
(`prioritized_promoted`).  Whatever the providers answer, the entries are tried
in this order up to the first one that is not skipped, and that one decides
(`attemptsWith_trace`): `Trace` says what was tried and what comes of it, with
no reference to how the run goes.
-/
import Mathlib.Data.List.Nodup
import SyntaxChunks.Selection

namespace SyntaxChunks

open Number (Binary64)

/-! ## The order -/

/-- The first member with the property, if there is one, moved to the front of
a list, and all others left in order. -/
inductive Promoted {α : Type} (P : α → Prop) : List α → List α → Prop
  | unchanged {l : List α} : (∀ a ∈ l, ¬ P a) → Promoted P l l
  | moved {before after : List α} {a : α} : (∀ b ∈ before, ¬ P b) → P a →
      Promoted P (before ++ a :: after) (a :: (before ++ after))

theorem Promoted.perm {α : Type} {P : α → Prop} {l l' : List α} (h : Promoted P l l') :
    l'.Perm l := by
  cases h with
  | unchanged _ => exact .refl _
  | moved _ _ => exact List.perm_middle.symm

/-- If there is a member with the property, the first of them is in front. -/
theorem Promoted.exists_first {α : Type} {P : α → Prop} {l l' : List α} (h : Promoted P l l')
    (hex : ∃ a ∈ l, P a) : ∃ before a after, l = before ++ a :: after ∧
      (∀ b ∈ before, ¬ P b) ∧ P a ∧ l'.head? = some a := by
  cases h with
  | unchanged hnone =>
      obtain ⟨a, ha, hP⟩ := hex
      exact absurd hP (hnone a ha)
  | moved hbefore hP => exact ⟨_, _, _, rfl, hbefore, hP, rfl⟩

theorem Promoted.eq_of_forall_not {α : Type} {P : α → Prop} {l l' : List α} (h : Promoted P l l')
    (hnone : ∀ a ∈ l, ¬ P a) : l' = l := by
  cases h with
  | unchanged _ => rfl
  | moved _ hP => exact absurd hP (hnone _ (List.mem_append_right _ List.mem_cons_self))

/-- The entry claims the extension in the form in which extensions are compared.  One of which
nothing is left in this form is no extension, and no entry claims it. -/
def Entry.Claims (extension : Option Text) (e : Entry) : Prop :=
  ∃ key, extensionKey? extension = some key ∧ key ∈ e.extensions

section

variable {registry : Registry} {extension : Option Text}

theorem entryFor?_eq_none (h : registry.entryFor? extension = none) :
    ∀ e ∈ registry.entries, ¬ e.Claims extension := by
  rintro e he ⟨key, hkey, hclaim⟩
  rw [Registry.entryFor?, hkey, Option.bind_some, List.find?_eq_none] at h
  exact h e he (List.contains_iff_mem.mpr hclaim)

theorem entryFor?_eq_some {hinted : Entry} (h : registry.entryFor? extension = some hinted) :
    hinted.Claims extension ∧ ∃ before after, registry.entries = before ++ hinted :: after ∧
      ∀ e ∈ before, ¬ e.Claims extension := by
  obtain ⟨key, hkey, hfind⟩ := Option.bind_eq_some_iff.mp h
  obtain ⟨hclaim, before, after, hsplit, hbefore⟩ := List.find?_eq_some_iff_append.mp hfind
  refine ⟨⟨key, hkey, List.contains_iff_mem.mp hclaim⟩, before, after, hsplit, ?_⟩
  rintro e he ⟨key', hkey', hclaim'⟩
  rw [hkey] at hkey'
  cases hkey'
  have hnot := hbefore e he
  rw [List.contains_iff_mem.mpr hclaim'] at hnot
  cases hnot

/-- Names tell entries apart, so leaving out a name leaves out one entry. -/
theorem filter_name_ne {before after : List Entry} {hinted : Entry}
    (h : ((before ++ hinted :: after).map Entry.name).Nodup) :
    ((before ++ hinted :: after).filter fun e => e.name != hinted.name) = before ++ after := by
  rw [List.map_append, List.map_cons, List.nodup_middle, List.nodup_cons, ← List.map_append] at h
  have hother : ∀ e ∈ before ++ after, (e.name != hinted.name) = true := by
    intro e he
    rw [bne_iff_ne]
    intro hsame
    exact h.1 (hsame ▸ List.mem_map_of_mem he)
  have hkeep := List.filter_eq_self.mpr hother
  rw [List.filter_append] at hkeep ⊢
  rw [List.filter_cons_of_neg (by simp)]
  exact hkeep

/-- The first entry that claims the extension is tried first, and the others in their order. -/
theorem prioritized_promoted (registry : Registry) (extension : Option Text) :
    Promoted (Entry.Claims extension) registry.entries (registry.prioritized extension) := by
  unfold Registry.prioritized
  split
  · next hnone => exact .unchanged (entryFor?_eq_none hnone)
  · next hinted hsome =>
      obtain ⟨hclaim, before, after, hsplit, hbefore⟩ := entryFor?_eq_some hsome
      have hnodup := registry.names_nodup
      rw [hsplit] at hnodup ⊢
      rw [filter_name_ne hnodup]
      exact .moved hbefore hclaim

end

/-! ## One entry -/

/-- The tree has no error mark where the entry looks for one. -/
structure Entry.Passes (e : Entry) (root : Node) : Prop where
  atRoot : e.errorPosition ≠ .firstChild → root.isError = false
  atFirstChild : e.errorPosition ≠ .root → ∀ c ∈ root.children.head?, c.isError = false

/-- The answers after which the next entry is tried: a failure to parse, in time or not, no tree,
and a tree that does not pass. -/
inductive Entry.Skips (e : Entry) : Reply → Prop
  | failed (timedOut : Bool) (message : Text) : e.Skips (.failed timedOut message)
  | missing : e.Skips (.tree none)
  | marked {root : Node} : ¬ e.Passes root → e.Skips (.tree (some root))

/-- The answers after which no entry is tried, and what comes of them: a tree that passes is found,
with the name of the entry, and any other fault stays one. -/
inductive Entry.Decides (e : Entry) : Reply → Except Crash (Option (Node × Text)) → Prop
  | found {root : Node} : e.Passes root → e.Decides (.tree (some root)) (.ok (some (root, e.name)))
  | crashed (crash : Crash) : e.Decides (.crashed crash) (.error crash)

/-- What the provider of an entry answers. -/
def Entry.reply (grammars : Grammars) (contents : Contents) (timeout : Option Binary64)
    (e : Entry) : Reply :=
  (e.provider.parse grammars contents (effectiveTimeout timeout)).2

theorem isSuccessfulParse_iff {e : Entry} {root : Node} :
    isSuccessfulParse (some e.errorPosition) (some root) = true ↔ e.Passes root := by
  have hroot : (e.errorPosition.looksAtRoot && root.isError) = false ↔
      (e.errorPosition ≠ .firstChild → root.isError = false) := by
    cases e.errorPosition <;> simp [ErrorPosition.looksAtRoot]
  have hchild :
      (e.errorPosition.looksAtFirstChild && root.children.head?.any Node.isError) = false ↔
      (e.errorPosition ≠ .root → ∀ c ∈ root.children.head?, c.isError = false) := by
    cases root.children.head? <;> cases e.errorPosition <;>
      simp [ErrorPosition.looksAtFirstChild]
  simp only [isSuccessfulParse, Option.any_some, Bool.not_eq_true', Bool.or_eq_false_iff]
  rw [hroot, hchild]
  exact ⟨fun h => ⟨h.1, h.2⟩, fun h => ⟨h.atRoot, h.atFirstChild⟩⟩

section

variable {e : Entry} {r : Reply} {outcome : Except Crash (Option (Node × Text))}

theorem Entry.judge_of_passes {root : Node} (h : e.Passes root) :
    e.judge (.tree (some root)) = .accepted root :=
  if_pos (isSuccessfulParse_iff.mpr h)

theorem Entry.skips_or_decides (e : Entry) (r : Reply) :
    e.Skips r ∨ ∃ outcome, e.Decides r outcome := by
  cases r with
  | tree root =>
      cases root with
      | none => exact .inl .missing
      | some root =>
          by_cases hpass : e.Passes root
          · exact .inr ⟨_, .found hpass⟩
          · exact .inl (.marked hpass)
  | failed timedOut message => exact .inl (.failed timedOut message)
  | crashed crash => exact .inr ⟨_, .crashed crash⟩

theorem Entry.Skips.isFinal (h : e.Skips r) : (e.judge r).isFinal = false := by
  cases h with
  | failed timedOut message => rfl
  | missing => rfl
  | marked hfail =>
      rw [Entry.judge, if_neg (mt isSuccessfulParse_iff.mp hfail)]
      rfl

theorem Entry.Decides.isFinal (h : e.Decides r outcome) : (e.judge r).isFinal = true := by
  cases h with
  | found hpass =>
      rw [Entry.judge_of_passes hpass]
      rfl
  | crashed crash => rfl

/-- The last attempt decides. -/
theorem Entry.Decides.outcomeOf_eq (h : e.Decides r outcome) (call : Option Call) :
    outcomeOf [⟨e, call, e.judge r⟩] = outcome := by
  cases h with
  | found hpass =>
      rw [Entry.judge_of_passes hpass]
      rfl
  | crashed crash => rfl

theorem Entry.Decides.ne_none (h : e.Decides r outcome) : outcome ≠ .ok none := by
  intro hnone
  cases h with
  | found hpass => cases hnone
  | crashed crash => cases hnone

end

/-! ## Runs over entries -/

/-- What trying entries in an order comes to: the entries that were tried, and
the outcome.  All entries are skipped and nothing is found, or the first one
that is not skipped is the last to be tried and decides. -/
inductive Trace (reply : Entry → Reply) (order : List Entry) :
    List Entry → Except Crash (Option (Node × Text)) → Prop
  | exhausted : (∀ e ∈ order, e.Skips (reply e)) → Trace reply order order (.ok none)
  | decided {front rest : List Entry} {e : Entry}
      {outcome : Except Crash (Option (Node × Text))} : order = front ++ e :: rest →
      (∀ a ∈ front, a.Skips (reply a)) → e.Decides (reply e) outcome →
      Trace reply order (front ++ [e]) outcome

section

variable {reply : Entry → Reply} {order tried : List Entry}
  {outcome : Except Crash (Option (Node × Text))}

/-- An entry that is skipped leaves the outcome to the entries behind it. -/
theorem Trace.skip {e : Entry} (he : e.Skips (reply e)) (h : Trace reply order tried outcome) :
    Trace reply (e :: order) (e :: tried) outcome := by
  cases h with
  | exhausted hskip => exact .exhausted (List.forall_mem_cons.mpr ⟨he, hskip⟩)
  | decided horder hskip hdecides =>
      exact .decided (congrArg (e :: ·) horder) (List.forall_mem_cons.mpr ⟨he, hskip⟩) hdecides

theorem Trace.isPrefix (h : Trace reply order tried outcome) : tried <+: order := by
  cases h with
  | exhausted _ => exact List.prefix_rfl
  | @decided front rest e _ horder _ _ =>
      exact ⟨rest, by rw [horder, List.append_assoc, List.singleton_append]⟩

/-- Nothing is found exactly if every entry was tried and skipped. -/
theorem Trace.eq_none_iff (h : Trace reply order tried outcome) :
    outcome = .ok none ↔ tried = order ∧ ∀ e ∈ tried, e.Skips (reply e) := by
  cases h with
  | exhausted hskip => exact ⟨fun _ => ⟨rfl, hskip⟩, fun _ => rfl⟩
  | @decided front rest e _ _ _ hdecides =>
      constructor
      · intro hnone
        exact absurd hnone hdecides.ne_none
      · rintro ⟨_, hskip⟩
        have hfinal := (hskip e (List.mem_append_right front List.mem_cons_self)).isFinal
        rw [hdecides.isFinal] at hfinal
        cases hfinal

end

section

variable {grammars : Grammars} {contents : Contents} {timeout : Option Binary64}

/-- An attempt that does not end the run has no part in its outcome. -/
theorem outcomeOf_cons {a : Attempt} (h : a.verdict.isFinal = false) (rest : List Attempt) :
    outcomeOf (a :: rest) = outcomeOf rest := by
  cases rest with
  | nil =>
      obtain ⟨entry, call, verdict⟩ := a
      cases verdict with
      | accepted root => cases h
      | rejected => rfl
      | failed timedOut message => rfl
      | crashed crash => cases h
  | cons b rest => simp only [outcomeOf, List.getLast?_cons_cons]

/-- The attempts with some entries are those of a trace, and lead to its outcome. -/
theorem attemptsWith_trace : ∀ entries : List Entry, ∃ tried,
    attemptsWith grammars contents timeout entries
        = tried.map (Entry.attempt grammars contents timeout) ∧
      Trace (Entry.reply grammars contents timeout) entries tried
        (outcomeOf (attemptsWith grammars contents timeout entries))
  | [] => ⟨[], rfl, .exhausted fun _ he => absurd he List.not_mem_nil⟩
  | e :: rest => by
      have hverdict : (e.attempt grammars contents timeout).verdict
          = e.judge (e.reply grammars contents timeout) := rfl
      rw [attemptsWith]
      rcases e.skips_or_decides (e.reply grammars contents timeout) with
        hskip | ⟨outcome, hdecides⟩
      · obtain ⟨tried, hattempts, htrace⟩ := attemptsWith_trace rest
        have hgoes := hskip.isFinal
        rw [← hverdict] at hgoes
        refine ⟨e :: tried, ?_, ?_⟩
        · simp only [hgoes, Bool.false_eq_true, if_false, hattempts, List.map_cons]
        · simp only [hgoes, Bool.false_eq_true, if_false, outcomeOf_cons hgoes]
          exact htrace.skip hskip
      · have hends := hdecides.isFinal
        rw [← hverdict] at hends
        simp only [hends, if_true]
        have houtcome : outcomeOf [e.attempt grammars contents timeout] = outcome :=
          hdecides.outcomeOf_eq _
        refine ⟨[e], rfl, ?_⟩
        rw [houtcome]
        exact .decided (List.nil_append (e :: rest)).symm
          (fun _ ha => absurd ha List.not_mem_nil) hdecides

end

/-! ## Selection -/

/-- What is tried of a registry for a document, and what comes of it, for all providers: the
entries in the order of the registry, with the first one that claims the document's extension
in front, each at most once, up to the first one that is not skipped.  Nothing is found
exactly if all of them were tried and skipped. -/
theorem select_tries_in_order (grammars : Grammars) (registry : Registry)
    (timeout : Option Binary64) (d : Document) :
    (registry.prioritized d.extension).Perm registry.entries ∧
      Promoted (Entry.Claims d.extension) registry.entries (registry.prioritized d.extension) ∧
      ∃ tried, attempts grammars registry timeout d
          = tried.map (Entry.attempt grammars d.contents timeout) ∧
        tried <+: registry.prioritized d.extension ∧
        (tried.map Entry.name).Nodup ∧
        Trace (Entry.reply grammars d.contents timeout) (registry.prioritized d.extension) tried
          (select grammars registry timeout d) ∧
        (select grammars registry timeout d = .ok none ↔
          tried = registry.prioritized d.extension ∧
            ∀ e ∈ tried, e.Skips (e.reply grammars d.contents timeout)) := by
  have hpromoted := prioritized_promoted registry d.extension
  obtain ⟨tried, hattempts, htrace⟩ :=
    attemptsWith_trace (registry.prioritized d.extension)
  have hnodup : ((registry.prioritized d.extension).map Entry.name).Nodup :=
    (hpromoted.perm.map Entry.name).nodup_iff.mpr registry.names_nodup
  have hfront := htrace.isPrefix
  refine ⟨hpromoted.perm, hpromoted, tried, hattempts, hfront, ?_, htrace, htrace.eq_none_iff⟩
  exact hnodup.sublist (hfront.sublist.map Entry.name)

end SyntaxChunks
