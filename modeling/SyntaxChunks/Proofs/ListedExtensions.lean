/-
# `Proofs.ListedExtensions` — extensions of a table and of documents

A table's extensions are normalized once, and a document's twice: when the
document is made, and when its extension is looked up.  Normalizing cuts the
blanks before the dots, so a blank behind the dots is left in front, and the
second time it is cut as well.  Nothing else is changed by the second time: what
normalizing leaves is in lower case, does not begin with a dot and does not end
with a blank (`normalized_normalizeExtension`).

So documents find the language that lists their extension unless the normalized
extension begins with a blank, and then there is a table that lists it in vain
(`foundWhereListed_iff`).  As it is written, an extension is found in every
table that lists it (`startsWithListing_of_lists`).
-/
import Mathlib.Data.List.DropRight
import SyntaxChunks.Document
import SyntaxChunks.Proofs.LowerCase
import SyntaxChunks.Proofs.Selection
import SyntaxChunks.Proofs.Tables

namespace SyntaxChunks

open Text

/-! ## Trimming -/

section

variable {α : Type} {p : α → Bool} {l : List α}

theorem trimBy_eq_rdropWhile : trimBy p l = (l.dropWhile p).rdropWhile p := rfl

theorem trimBy_sublist : (trimBy p l).Sublist (l.dropWhile p) :=
  (List.rdropWhile_prefix p _).sublist

theorem getLast?_trimBy : ∀ a ∈ (trimBy p l).getLast?, p a = false := by
  intro a ha
  obtain ⟨hne, rfl⟩ := List.mem_getLast?_eq_getLast ha
  exact Bool.eq_false_iff.mpr (List.rdropWhile_last_not p _ hne)

theorem dropWhile_eq_self (h : ∀ a ∈ l.head?, p a = false) : l.dropWhile p = l := by
  cases l with
  | nil => rfl
  | cons a l => exact List.dropWhile_cons_of_neg (Bool.eq_false_iff.mp (h a rfl))

theorem trimBy_eq_self (hhead : ∀ a ∈ l.head?, p a = false)
    (hlast : ∀ a ∈ l.getLast?, p a = false) : trimBy p l = l := by
  rw [trimBy_eq_rdropWhile, dropWhile_eq_self hhead, List.rdropWhile_eq_self_iff]
  intro hne
  rw [hlast _ (List.getLast?_eq_some_getLast hne)]
  exact Bool.false_ne_true

end

/-! ## Normalizing twice -/

/-- What normalizing leaves of an extension. -/
structure NormalizedExtension (cs : Text) : Prop where
  lowered : ∀ c ∈ cs, Lowered c
  head : ∀ c ∈ cs.head?, c ≠ .char '.'
  last : ∀ c ∈ cs.getLast?, isBlank c = false

theorem normalizeExtension_eq (x : Text) : normalizeExtension x
    = lowerAfter [] ((trimBy isBlank x).dropWhile (· == .char '.')) := rfl

theorem normalized_normalizeExtension (x : Text) :
    NormalizedExtension (normalizeExtension x) := by
  rw [normalizeExtension_eq]
  refine ⟨lowered_of_mem_lowerAfter, ?_, ?_⟩
  · intro d hd hdot
    obtain ⟨c, hc, hlowers⟩ := head?_lowerAfter d hd
    have hne := List.head?_dropWhile_not (· == .char '.') (trimBy isBlank x)
    rw [hc, hlowers.dot hdot] at hne
    cases hne
  · intro d hd
    obtain ⟨c, hc, hlowers⟩ := getLast?_lowerAfter d hd
    have hlast : c ∈ (trimBy isBlank x).getLast? := by
      obtain ⟨dots, hdots⟩ := List.dropWhile_suffix (l := trimBy isBlank x) (· == .char '.')
      rw [← hdots, List.getLast?_append, hc]
      rfl
    by_contra hblank
    have hfalse := getLast?_trimBy c hlast
    rw [hlowers.blank (eq_true_of_ne_false hblank)] at hfalse
    cases hfalse

/-- An extension in lower case is only cut. -/
theorem normalizeExtension_of_lowered {x : Text} (h : ∀ c ∈ x, Lowered c) :
    (normalizeExtension x) = (trimBy isBlank x).dropWhile (· == .char '.') := by
  rw [normalizeExtension_eq]
  refine lowerAfter_of_lowered fun c hc => h c ?_
  have htrimmed := (List.dropWhile_sublist _).mem hc
  exact (List.dropWhile_sublist isBlank).mem (trimBy_sublist.mem htrimmed)

/-- What normalizing leaves stays as it is unless it begins with a blank. -/
theorem NormalizedExtension.eq_self_iff {x : Text} (h : NormalizedExtension x) :
    normalizeExtension x = x ↔ ∀ c ∈ x.head?, isBlank c = false := by
  rw [normalizeExtension_of_lowered h.lowered]
  constructor
  · intro hsame c hc
    by_contra hblank
    -- the blank in front is cut, and nothing comes for it
    obtain ⟨rest, hrest⟩ := List.head?_eq_some_iff.mp hc
    have hdropped : x.dropWhile isBlank = rest.dropWhile isBlank := by
      rw [hrest]
      exact List.dropWhile_cons_of_pos (eq_true_of_ne_false hblank)
    have hcut : x.length ≤ rest.length :=
      calc x.length
          = ((trimBy isBlank x).dropWhile (· == .char '.')).length := by rw [hsame]
        _ ≤ (trimBy isBlank x).length := (List.dropWhile_sublist _).length_le
        _ ≤ (rest.dropWhile isBlank).length := hdropped ▸ trimBy_sublist.length_le
        _ ≤ rest.length := (List.dropWhile_sublist _).length_le
    rw [hrest] at hcut
    exact Nat.not_succ_le_self _ hcut
  · intro hhead
    rw [trimBy_eq_self hhead h.last]
    exact dropWhile_eq_self fun c hc => by simpa using h.head c hc

/-- Normalizing an extension again changes it exactly if it begins with a blank by then. -/
theorem normalizeExtension_normalizeExtension_iff (x : Text) :
    normalizeExtension (normalizeExtension x) = normalizeExtension x ↔
      ∀ c ∈ (normalizeExtension x).head?, isBlank c = false :=
  (normalized_normalizeExtension x).eq_self_iff

/-! ## What a table lists -/

/-- A language with the extensions that are listed for it. -/
structure ListedLanguage where
  name : Text
  extensions : List Text

/-- What an entry was asked for with. -/
def EntryDraft.listed (d : EntryDraft) : ListedLanguage := ⟨d.name, d.extensions⟩

/-- What an entry has kept. -/
def Entry.listed (e : Entry) : ListedLanguage := ⟨e.name, e.extensions⟩

namespace ListedLanguage

/-- The language with its extensions normalized. -/
def normalized (l : ListedLanguage) : ListedLanguage :=
  ⟨l.name, l.extensions.map normalizeExtension⟩

/-- The language lists the extension, in some spelling. -/
def Lists (l : ListedLanguage) (x : Text) : Prop :=
  ∃ y ∈ l.extensions, normalizeExtension y = normalizeExtension x

/-- The value lists the language, with a list of strings for its extensions. -/
def OfValue (value : Json) (l : ListedLanguage) : Prop :=
  ∃ members name, value = .obj members ∧
    Json.get? "name" members = some name ∧ name.display = l.name ∧
    (Json.get? "extensions" members).getD (.arr []) = .arr (l.extensions.map .str)

/-- The table lists the languages, in this order. -/
def OfTable (table : Json) (languages : List ListedLanguage) : Prop :=
  ∃ members values, table = .obj members ∧
    (Json.get? "languages" members).getD (.arr []) = .arr values ∧
    List.Forall₂ OfValue values languages

end ListedLanguage

theorem mapM_readExtension (texts : List Text) :
    (texts.map Json.str).mapM Registry.readExtension = .ok (texts.map normalizeExtension) := by
  rw [mapM_eq_ok, List.forall₂_map_left_iff, List.forall₂_map_right_iff, List.forall₂_same]
  exact fun _ _ => rfl

theorem listed_of_readLanguage {value : Json} {l : ListedLanguage} {draft : EntryDraft}
    (hvalue : l.OfValue value) (h : Registry.readLanguage value = .ok draft) :
    draft.listed = l.normalized := by
  obtain ⟨members, name, rfl, hname, hdisplay, hextensions⟩ := hvalue
  obtain ⟨_, name', items, keys, ⟨⟩, hname', hitems, hkeys, rfl⟩ :=
    Registry.readLanguage_eq_ok h
  rw [hname] at hname'
  cases hname'
  rw [hextensions] at hitems
  cases hitems
  rw [mapM_readExtension] at hkeys
  cases hkeys
  rw [EntryDraft.listed, ListedLanguage.normalized, hdisplay]

theorem listed_of_readLanguages {values : List Json} {languages : List ListedLanguage}
    {drafts : List EntryDraft} (hvalues : List.Forall₂ ListedLanguage.OfValue values languages)
    (h : List.Forall₂ (fun v d => Registry.readLanguage v = .ok d) values drafts) :
    drafts.map EntryDraft.listed = languages.map ListedLanguage.normalized := by
  induction hvalues generalizing drafts with
  | nil =>
      cases h
      rfl
  | cons hvalue _ ih =>
      obtain ⟨draft, rest, hread, hrest, rfl⟩ := List.forall₂_cons_left_iff.mp h
      rw [List.map_cons, List.map_cons, listed_of_readLanguage hvalue hread, ih hrest]

theorem listed_of_madeOf {entries : List Entry} {drafts : List EntryDraft}
    (h : List.Forall₂ Entry.MadeOf entries drafts) :
    entries.map Entry.listed = drafts.map EntryDraft.listed := by
  induction h with
  | nil => rfl
  | cons hmade _ ih =>
      rw [List.map_cons, List.map_cons, ih, Entry.listed, EntryDraft.listed, hmade.name,
        hmade.extensions]

section

variable {table : Json} {languages : List ListedLanguage} {registry : Registry} {x : Text}

/-- The entries of a table are the languages that it lists, with their extensions normalized. -/
theorem listed_of_ofTable (htable : ListedLanguage.OfTable table languages)
    (h : Registry.ofTable table = .ok registry) :
    registry.entries.map Entry.listed = languages.map ListedLanguage.normalized := by
  obtain ⟨members, values, rfl, hlanguages, hvalues⟩ := htable
  obtain ⟨_, _, drafts, ⟨⟩, hitems, hread, hmade⟩ := Registry.ofTable_eq_ok h
  rw [hlanguages] at hitems
  cases hitems
  exact (listed_of_madeOf hmade).trans (listed_of_readLanguages hvalues hread)

/-! ## What is tried first -/

/-- The first of the languages that lists the extension `x` is the first one tried on documents
that carry the extension `carried`. -/
def Registry.StartsWithListing (registry : Registry) (languages : List ListedLanguage)
    (x : Text) (carried : Option Text) : Prop :=
  ∃ before l after, languages = before ++ l :: after ∧ l.Lists x ∧ (∀ b ∈ before, ¬ b.Lists x) ∧
    (registry.prioritized carried).head?.map Entry.name = some l.name

theorem extensionKey?_eq_some_iff {key : Text} :
    extensionKey? (some x) = some key ↔ normalizeExtension x ≠ [] ∧ normalizeExtension x = key := by
  simp [extensionKey?]

theorem Entry.claims_iff_lists {e : Entry} {l : ListedLanguage} (h : e.listed = l.normalized) :
    e.Claims (some x) ↔ normalizeExtension x ≠ [] ∧ l.Lists x := by
  have hextensions : e.extensions = l.extensions.map normalizeExtension :=
    congrArg ListedLanguage.extensions h
  simp only [Entry.Claims, extensionKey?_eq_some_iff, hextensions, List.mem_map,
    ListedLanguage.Lists]
  constructor
  · rintro ⟨_, ⟨hx, rfl⟩, hlists⟩
    exact ⟨hx, hlists⟩
  · rintro ⟨hx, hlists⟩
    exact ⟨_, ⟨hx, rfl⟩, hlists⟩

/-- An extension as it is written finds the first language that lists it, in whatever spelling. -/
theorem startsWithListing_of_lists (htable : ListedLanguage.OfTable table languages)
    (h : Registry.ofTable table = .ok registry) (hx : normalizeExtension x ≠ [])
    (hlists : ∃ l ∈ languages, l.Lists x) :
    registry.StartsWithListing languages x (some x) := by
  have hlisted := listed_of_ofTable htable h
  have hclaimed : ∃ e ∈ registry.entries, e.Claims (some x) := by
    obtain ⟨l, hl, hlists⟩ := hlists
    have hmem : l.normalized ∈ registry.entries.map Entry.listed :=
      hlisted ▸ List.mem_map_of_mem hl
    obtain ⟨e, he, hsame⟩ := List.mem_map.mp hmem
    exact ⟨e, he, (Entry.claims_iff_lists hsame).mpr ⟨hx, hlists⟩⟩
  obtain ⟨before, e, after, hsplit, hbefore, hclaim, hhead⟩ :=
    (prioritized_promoted registry (some x)).exists_first hclaimed
  -- the languages are split where the entries are
  rw [hsplit, List.map_append, List.map_cons] at hlisted
  obtain ⟨front, back, rfl, hfront, hback⟩ := List.map_eq_append_iff.mp hlisted.symm
  obtain ⟨l, behind, rfl, hl, _⟩ := List.map_eq_cons_iff.mp hback
  refine ⟨front, l, behind, rfl, ((Entry.claims_iff_lists hl.symm).mp hclaim).2, ?_, ?_⟩
  · intro b hb hlists
    have hmem : b.normalized ∈ before.map Entry.listed := hfront ▸ List.mem_map_of_mem hb
    obtain ⟨e', he', hsame⟩ := List.mem_map.mp hmem
    exact hbefore e' he' ((Entry.claims_iff_lists hsame).mpr ⟨hx, hlists⟩)
  · rw [hhead]
    exact congrArg (fun l => some l.name) hl.symm

/-- An extension that no language lists leaves the order of the table. -/
theorem prioritized_of_not_lists (htable : ListedLanguage.OfTable table languages)
    (h : Registry.ofTable table = .ok registry) (hnone : ∀ l ∈ languages, ¬ l.Lists x) :
    registry.prioritized (some x) = registry.entries := by
  refine (prioritized_promoted registry (some x)).eq_of_forall_not fun e he hclaim => ?_
  have hmem : e.listed ∈ languages.map ListedLanguage.normalized :=
    listed_of_ofTable htable h ▸ List.mem_map_of_mem he
  obtain ⟨l, hl, hsame⟩ := List.mem_map.mp hmem
  exact hnone l hl ((Entry.claims_iff_lists hsame.symm).mp hclaim).2

/-- Whatever table lists the extension, documents made with it start with the first language that
lists it. -/
def FoundWhereListed (x : Text) : Prop :=
  ∀ (table : Json) (languages : List ListedLanguage) (registry : Registry),
    ListedLanguage.OfTable table languages → Registry.ofTable table = .ok registry →
    (∃ l ∈ languages, x ∈ l.extensions) → ∀ (contents : Contents) (path : Text),
      registry.StartsWithListing languages x (Document.of contents (some x) path).extension

/-! ## A table that lists an extension in vain -/

/-- A table of two languages of which only the second lists an extension. -/
def secondLists (x : Text) : Json :=
  .obj [("languages", .arr [.obj [("name", .str "a")],
    .obj [("name", .str "b"), ("extensions", .arr [.str x])]])]

theorem ofTable_secondLists (x : Text) :
    ListedLanguage.OfTable (secondLists x) [⟨"a", []⟩, ⟨"b", [x]⟩] := by
  simp [ListedLanguage.OfTable, secondLists, ListedLanguage.OfValue, Json.get?, Json.display]

theorem exists_ofTable_secondLists (x : Text) :
    ∃ registry, Registry.ofTable (secondLists x) = .ok registry := by
  have hdrafts : Registry.ofTable (secondLists x) = (Registry.of?
      [⟨"a", .grammar "a", [], "both"⟩,
        ⟨"b", .grammar "b", [normalizeExtension x], "both"⟩]).mapError .refused := rfl
  have hboth : ErrorPosition.ofText? "both" ≠ none := by decide
  have henrol : ∃ entries, Registry.enrol [] [⟨"a", .grammar "a", [], "both"⟩,
      ⟨"b", .grammar "b", [normalizeExtension x], "both"⟩] = .ok entries :=
    Registry.exists_enrol_eq_ok (by simp) (by simp) (by simp [hboth])
  obtain ⟨entries, hentries⟩ := henrol
  rw [hdrafts, Registry.of?, hentries]
  exact ⟨_, rfl⟩

/-- Documents find the languages that list their extension exactly if the normalized extension does
not begin with a blank. -/
theorem foundWhereListed_iff (hx : normalizeExtension x ≠ []) :
    FoundWhereListed x ↔ ∀ c ∈ (normalizeExtension x).head?, isBlank c = false := by
  have hcarried : ∀ (contents : Contents) (path : Text),
      (Document.of contents (some x) path).extension = some (normalizeExtension x) := by
    intro contents path
    rw [Document.of, extensionKey?_eq_some_iff]
    exact ⟨hx, rfl⟩
  simp only [FoundWhereListed, hcarried]
  rw [← normalizeExtension_normalizeExtension_iff]
  constructor
  · intro hall
    by_contra hother
    have htable := ofTable_secondLists x
    obtain ⟨registry, hok⟩ := exists_ofTable_secondLists x
    have hstarts : registry.StartsWithListing [⟨"a", []⟩, ⟨"b", [x]⟩] x
        (some (normalizeExtension x)) :=
      hall _ _ registry htable hok ⟨⟨"b", [x]⟩, by simp, by simp⟩ #[] ""
    obtain ⟨before, l, after, hsplit, hlists, _, hfirst⟩ := hstarts
    have hnone : ∀ l ∈ [⟨"a", []⟩, ⟨"b", [x]⟩],
        ¬ ListedLanguage.Lists l (normalizeExtension x) := by
      simp [ListedLanguage.Lists, Ne.symm hother]
    rw [prioritized_of_not_lists htable hok hnone] at hfirst
    -- the first of the table is in front, and it is not the one that lists `x`
    have hfront : (registry.entries.map Entry.listed).head?.map ListedLanguage.name
        = some ("a" : Text) := by
      rw [listed_of_ofTable htable hok]
      rfl
    rw [List.head?_map, Option.map_map] at hfront
    have hname : some l.name = some ("a" : Text) := hfirst.symm.trans hfront
    have hl : l ∈ [⟨"a", []⟩, ⟨"b", [x]⟩] := hsplit ▸ List.mem_append_right _ List.mem_cons_self
    rcases List.mem_pair.mp hl with rfl | rfl
    · obtain ⟨y, hy, _⟩ := hlists
      cases hy
    · exact absurd hname (by simp)
  · intro hsame table languages registry htable hok ⟨l, hl, hmem⟩ _ _
    have hlists : ∃ l ∈ languages, l.Lists (normalizeExtension x) := ⟨l, hl, x, hmem, hsame.symm⟩
    have hfirst := startsWithListing_of_lists htable hok (hsame.symm ▸ hx) hlists
    simpa only [Registry.StartsWithListing, ListedLanguage.Lists, hsame] using hfirst

/-- The dot in front of a blank is cut, and the blank only when the extension is looked up. -/
theorem foundWhereListed_fails_behind_blank :
    normalizeExtension ". x" ≠ "" ∧ normalizeExtension ".X" ≠ "" ∧
      ¬ FoundWhereListed ". x" ∧ FoundWhereListed ".X" := by
  have hblank : normalizeExtension ". x" = " x" := by decide +kernel
  have hplain : normalizeExtension ".X" = "x" := by decide +kernel
  have hx : normalizeExtension ". x" ≠ "" := by decide +kernel
  have hX : normalizeExtension ".X" ≠ "" := by decide +kernel
  refine ⟨hx, hX, ?_, ?_⟩
  · rw [foundWhereListed_iff hx, hblank]
    intro hhead
    exact absurd (hhead ' ' rfl) (by decide)
  · rw [foundWhereListed_iff hX, hplain]
    rintro c ⟨⟩
    decide

end

end SyntaxChunks
