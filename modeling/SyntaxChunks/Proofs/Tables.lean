/-
# `Proofs.Tables` — the registry of a table

What a step of reading a table gives, said once for each: a language has a name and a list of
extensions (`readLanguage_eq_ok`), an entry has what its draft has (`madeOf_of_enrol`), and the
entries of a registry are the languages of its table in their order (`ofTable_eq_ok`).  The shipped
languages make a registry (`exists_shipped_eq_ok`).  Of registries asked for in turn the first that
can be read is given to all behind it (`inTurn_append`, `inTurn_some`).
-/
import Mathlib.Data.List.Nodup
import SyntaxChunks.Proofs.Except
import SyntaxChunks.Registry.Shipped

namespace SyntaxChunks

/-! ## Entries -/

/-- The entry has what its draft has. -/
structure Entry.MadeOf (e : Entry) (d : EntryDraft) : Prop where
  name : e.name = d.name
  provider : e.provider = d.provider
  extensions : e.extensions = d.extensions
  position : ErrorPosition.ofText? d.errorPosition = some e.errorPosition

/-- The name of a position is known. -/
theorem ErrorPosition.ofText?_text (p : ErrorPosition) : ofText? p.text = some p := by
  cases p <;> decide

namespace Registry

theorem madeOf_of_enrol : ∀ {drafts : List EntryDraft} {taken : List Text} {entries},
    enrol taken drafts = .ok entries → List.Forall₂ Entry.MadeOf entries.1 drafts
  | [], taken, entries, h => by
      cases h
      exact .nil
  | draft :: rest, taken, entries, h => by
      unfold enrol at h
      split at h
      · cases h
      · split at h
        · cases h
        · next position hposition =>
            split at h
            · cases h
            · next entries' nodup fresh hrest =>
                cases h
                exact .cons ⟨rfl, rfl, rfl, hposition⟩ (madeOf_of_enrol hrest)

/-- Drafts of different names with known positions make a registry. -/
theorem exists_enrol_eq_ok : ∀ {drafts : List EntryDraft} {taken : List Text},
    (drafts.map EntryDraft.name).Nodup → (∀ d ∈ drafts, d.name ∉ taken) →
      (∀ d ∈ drafts, ErrorPosition.ofText? d.errorPosition ≠ none) →
        ∃ entries, enrol taken drafts = .ok entries
  | [], _, _, _, _ => ⟨_, rfl⟩
  | draft :: rest, taken, hnodup, hfresh, hposition => by
      obtain ⟨hfree, hfresh⟩ := List.forall_mem_cons.mp hfresh
      obtain ⟨hknown, hposition⟩ := List.forall_mem_cons.mp hposition
      obtain ⟨position, hknown⟩ := Option.ne_none_iff_exists'.mp hknown
      rw [List.map_cons, List.nodup_cons] at hnodup
      have hbehind : ∀ d ∈ rest, d.name ∉ draft.name :: taken := by
        intro d hd hmem
        rcases List.mem_cons.mp hmem with hsame | hmem
        · exact hnodup.1 (hsame ▸ List.mem_map_of_mem hd)
        · exact hfresh d hd hmem
      obtain ⟨⟨entries, nodup, fresh⟩, hentries⟩ :=
        exists_enrol_eq_ok hnodup.2 hbehind hposition
      unfold enrol
      rw [dif_neg hfree, hknown, hentries]
      exact ⟨_, rfl⟩

theorem madeOf_of_of? {drafts : List EntryDraft} {registry : Registry}
    (h : of? drafts = .ok registry) : List.Forall₂ Entry.MadeOf registry.entries drafts := by
  unfold of? at h
  cases henrol : enrol [] drafts with
  | error e =>
      rw [henrol] at h
      cases h
  | ok entries =>
      rw [henrol] at h
      cases h
      exact madeOf_of_enrol henrol

/-! ## The shipped languages -/

/-- The shipped languages make a registry. -/
theorem exists_shipped_eq_ok : ∃ registry, shipped = .ok registry := by
  have hnodup : (shippedLanguages.map Prod.fst).Nodup := by decide +kernel
  have henrol : ∃ entries, enrol [] (shippedLanguages.map fun l =>
      ⟨l.1, .grammar l.1, l.2.1, l.2.2.text⟩) = .ok entries := by
    refine exists_enrol_eq_ok ?_ (fun _ _ => List.not_mem_nil) ?_
    · rw [List.map_map]
      exact hnodup
    · intro d hd
      obtain ⟨l, _, rfl⟩ := List.mem_map.mp hd
      rw [ErrorPosition.ofText?_text]
      exact Option.some_ne_none _
  obtain ⟨entries, hentries⟩ := henrol
  rw [shipped, of?, hentries]
  exact ⟨_, rfl⟩

/-- An environment that names no table gives a registry. -/
theorem exists_ofEnvironment_eq_ok {env : String → Option Text} (files : FileSystem)
    (h : (Text.strip ((env tableVariable).getD "")).isEmpty = true) :
    ∃ registry, ofEnvironment env files = .ok registry := by
  obtain ⟨registry, hshipped⟩ := exists_shipped_eq_ok
  exact ⟨registry, (if_pos h).trans hshipped⟩

/-! ## Languages of a table -/

theorem readLanguage_eq_ok {value : Json} {draft : EntryDraft}
    (h : readLanguage value = .ok draft) :
    ∃ members name items keys, value = .obj members ∧ Json.get? "name" members = some name ∧
      itemsOf ((Json.get? "extensions" members).getD (.arr [])) = .ok items ∧
      items.mapM readExtension = .ok keys ∧
      draft = {
        name := name.display
        provider := .grammar (((Json.get? "grammar" members).map Json.display).getD name.display)
        extensions := keys
        errorPosition := ((Json.get? "error_position" members).map Json.display).getD
          ErrorPosition.both.text } := by
  unfold readLanguage at h
  split at h
  · next members =>
      dsimp only at h
      split at h
      · next name hname =>
          simp only [bind_eq_ok] at h
          obtain ⟨_, ⟨⟩, items, hitems, keys, hkeys, ⟨⟩⟩ := h
          exact ⟨members, name, items, keys, rfl, hname, hitems, hkeys, rfl⟩
      · cases h
  · cases h

/-- The registry of a table is made of its languages, in their order. -/
theorem ofTable_eq_ok {table : Json} {registry : Registry} (h : ofTable table = .ok registry) :
    ∃ members values drafts, table = .obj members ∧
      itemsOf ((Json.get? "languages" members).getD (.arr [])) = .ok values ∧
      List.Forall₂ (fun v d => readLanguage v = .ok d) values drafts ∧
      List.Forall₂ Entry.MadeOf registry.entries drafts := by
  unfold ofTable at h
  split at h
  · next members =>
      obtain ⟨values, hvalues, h⟩ := bind_eq_ok.mp h
      obtain ⟨drafts, hdrafts, h⟩ := bind_eq_ok.mp h
      refine ⟨members, values, drafts, rfl, hvalues, mapM_eq_ok.mp hdrafts, ?_⟩
      cases hof : of? drafts with
      | error e =>
          rw [hof] at h
          cases h
      | ok registry' =>
          rw [hof] at h
          cases h
          exact madeOf_of_of? hof
  · cases h

/-! ## The registry that is kept -/

/-- Once a registry is kept, all are given that one. -/
theorem inTurn_some (files : FileSystem) (registry : Registry)
    (envs : List (String → Option Text)) :
    inTurn files (some registry) envs = envs.map fun _ => .ok registry := by
  induction envs with
  | nil => rfl
  | cons env envs ih => exact congrArg (Except.ok registry :: ·) ih

/-- The first registry that can be read is kept, and those before it are not. -/
theorem inTurn_append {files : FileSystem} {envs rest : List (String → Option Text)}
    (h : ∀ env ∈ envs, ∃ e, ofEnvironment env files = .error e) :
    inTurn files none (envs ++ rest)
      = (envs.map fun env => ofEnvironment env files) ++ inTurn files none rest := by
  induction envs with
  | nil => rfl
  | cons env envs ih =>
      obtain ⟨⟨e, he⟩, henvs⟩ := List.forall_mem_cons.mp h
      rw [List.map_cons, List.cons_append, List.cons_append, ← ih henvs, inTurn, Option.elim_none,
        he]
      rfl

end Registry

end SyntaxChunks
