/-
# `Proofs.CommandLine` — the paths of a command line

Once words are read, the double dash stands only where it ends the options, and all behind it are
operands (`AsRead`).  No option touches the paths, which are set once, by the first run of operands
with an operand in it, less the double dash that may open the run.  So an accepted command line has
at least one path, and its paths stand in it in their order (`ofArguments_paths`).

In the other direction any list of texts, whatever they look like, becomes the paths of a command
line behind a double dash, and the options in front of it stay as they are
(`ofArguments_append_dash`).
-/
import Mathlib.Data.List.TakeWhile
import SyntaxChunks.Cli.Options
import SyntaxChunks.Proofs.Except

namespace SyntaxChunks.Cli

/-! ## Reading words -/

/-- The words as they are read: the double dash ends the options, and only operands follow it. -/
inductive AsRead : List (Text × Reading) → Prop
  | nil : AsRead []
  | word {text : Text} {reading : Reading} {rest : List (Text × Reading)} : text ≠ doubleDash →
      reading ≠ .separator → AsRead rest → AsRead ((text, reading) :: rest)
  | dash (operands : List Text) :
      AsRead ((doubleDash, .separator) :: operands.map fun w => (w, .operand))

theorem map_fst_operands (operands : List Text) :
    (operands.map fun w => (w, Reading.operand)).map Prod.fst = operands := by
  rw [List.map_map]
  exact List.map_id operands

theorem isOperand_of_mem_operands {operands : List Text} :
    ∀ w ∈ operands.map fun w => (w, Reading.operand), w.2.isOperand = true := by
  intro w hw
  obtain ⟨_, _, rfl⟩ := List.mem_map.mp hw
  rfl

theorem ne_separator_of_mem_candidates {word : Text} {c : String × Reading}
    (h : c ∈ candidates word) : c.2 ≠ .separator := by
  unfold candidates at h
  simp only at h
  split at h
  · obtain ⟨n, _, hn⟩ := List.mem_filterMap.mp h
    split at hn
    · cases hn
      exact nofun
    · cases hn
  · obtain ⟨n, _, hn⟩ := List.mem_filterMap.mp h
    split at hn
    · cases hn
      exact nofun
    · split at hn
      · cases hn
        exact nofun
      · cases hn

/-- Only the double dash is read as one, and that before its shape is looked at. -/
theorem readWord_ne_separator {word : Text} {reading : Reading}
    (h : readWord word = .ok reading) : reading ≠ .separator := by
  unfold readWord at h
  split at h
  · split at h
    · cases h
      exact nofun
    · simp only at h
      split at h
      · cases h
        exact nofun
      · split at h
        · cases h
          split <;> exact nofun
        · next only honly =>
            cases h
            have hmem := List.mem_singleton_self only
            rw [← honly] at hmem
            exact ne_separator_of_mem_candidates hmem
        · cases h
  · cases h
    exact nofun

theorem asRead_of_readWords : ∀ {arguments : List Text} {words : List (Text × Reading)},
    readWords arguments = .ok words → AsRead words ∧ words.map Prod.fst = arguments
  | [], words, h => by
      cases h
      exact ⟨.nil, rfl⟩
  | word :: rest, words, h => by
      unfold readWords at h
      split at h
      · next hdash =>
          cases h
          rw [beq_iff_eq] at hdash
          subst hdash
          exact ⟨.dash rest, congrArg (doubleDash :: ·) (map_fst_operands rest)⟩
      · next hdash =>
          obtain ⟨reading, hreading, h⟩ := bind_eq_ok.mp h
          obtain ⟨behind, hbehind, h⟩ := bind_eq_ok.mp h
          cases h
          obtain ⟨hread, hwords⟩ := asRead_of_readWords hbehind
          refine ⟨.word ?_ (readWord_ne_separator hreading) hread, ?_⟩
          · exact fun heq => hdash (beq_iff_eq.mpr heq)
          · rw [List.map_cons, hwords]

theorem Reading.operand_or_separator {reading : Reading} (hunknown : reading ≠ .unknown)
    (hoption : ∀ spec name attached, reading ≠ .option spec name attached) :
    reading = .operand ∨ reading = .separator := by
  cases reading with
  | operand => exact .inl rfl
  | separator => exact .inr rfl
  | option spec name attached => exact absurd rfl (hoption spec name attached)
  | unknown => exact absurd rfl hunknown

/-- Behind a run of operands the words are still as they are read. -/
theorem AsRead.dropWhile {words : List (Text × Reading)} (h : AsRead words) :
    AsRead (words.dropWhile fun w => w.2.isOperand) := by
  induction h with
  | nil => exact .nil
  | @word text reading rest hdash hreading hrest ih =>
      rw [List.dropWhile_cons]
      split
      · exact ih
      · exact .word hdash hreading hrest
  | dash operands =>
      have hall :
          ∀ w ∈ (doubleDash, Reading.separator) :: operands.map fun w => (w, Reading.operand),
            w.2.isOperand = true :=
        List.forall_mem_cons.mpr ⟨rfl, isOperand_of_mem_operands⟩
      rw [List.dropWhile_eq_nil_iff.mpr hall]
      exact .nil

/-! ## Options leave the paths alone -/

theorem setFlag_paths {o o' : Options} {spec : OptionSpec} (h : o.setFlag spec = .ok o') :
    o'.paths = o.paths := by
  unfold Options.setFlag at h
  split at h <;> cases h <;> rfl

theorem setValue_paths {o o' : Options} {spec : OptionSpec} {value : Text}
    (h : o.setValue spec value = .ok o') : o'.paths = o.paths := by
  unfold Options.setValue at h
  simp only at h
  split at h
  case h_5 =>
    split at h
    · cases h
      rfl
    · cases h
  case h_6 =>
    cases h
    rfl
  -- the options with a whole number
  all_goals
    obtain ⟨_, _, h⟩ := bind_eq_ok.mp h
    cases h
    rfl

theorem foldlM_setFlag_paths : ∀ {flags : List OptionSpec} {o o' : Options},
    flags.foldlM Options.setFlag o = .ok o' → o'.paths = o.paths
  | [], _, _, h => by
      cases h
      rfl
  | _ :: _, _, _, h => by
      rw [List.foldlM_cons] at h
      obtain ⟨next, hnext, h⟩ := bind_eq_ok.mp h
      rw [foldlM_setFlag_paths h, setFlag_paths hnext]

theorem takeFlag_keeps {p q : Progress} {spec : OptionSpec} {name : Text}
    {attached : Option (Bool × Text)} (h : p.takeFlag spec name attached = .ok q) :
    q.hasPaths = p.hasPaths ∧ q.options.paths = p.options.paths := by
  unfold Progress.takeFlag at h
  split at h
  · obtain ⟨o, ho, h⟩ := bind_eq_ok.mp h
    cases h
    exact ⟨rfl, setFlag_paths ho⟩
  · split at h
    · cases h
    · obtain ⟨⟨flags, rest⟩, _, h⟩ := bind_eq_ok.mp h
      obtain ⟨o, ho, h⟩ := bind_eq_ok.mp h
      cases h
      exact ⟨rfl, foldlM_setFlag_paths ho⟩

/-! ## The paths of an accepted command line -/

/-- The paths, if there are any yet, are some of the given words in their order. -/
def Progress.PathsAmong (given : List Text) (p : Progress) : Prop :=
  p.hasPaths = true → p.options.paths ≠ [] ∧ p.options.paths.Sublist given

section

variable {given : List Text} {p q : Progress}

theorem Progress.PathsAmong.of_eq (h : p.PathsAmong given) (hhas : q.hasPaths = p.hasPaths)
    (hpaths : q.options.paths = p.options.paths) : q.PathsAmong given := by
  unfold PathsAmong
  rw [hhas, hpaths]
  exact h

/-- A run of operands loses its double dash and keeps the operand that it has. -/
theorem Progress.PathsAmong.takeRun {w : Text × Reading} {rest : List (Text × Reading)}
    (h : p.PathsAmong given) (hread : AsRead (w :: rest))
    (hgiven : ((w :: rest).map Prod.fst).Sublist given) :
    (p.takeRun (w :: rest.takeWhile fun w => w.2.isOperand)).PathsAmong given := by
  unfold Progress.takeRun
  split
  · next hrun =>
      intro _
      have hsub : ((w :: rest.takeWhile fun w => w.2.isOperand).map Prod.fst).Sublist
          ((w :: rest).map Prod.fst) :=
        ((List.takeWhile_sublist _).cons_cons w).map Prod.fst
      refine ⟨?_, List.erase_sublist.trans (hsub.trans hgiven)⟩
      rw [List.map_cons]
      cases hread with
      | word hdash hreading hrest =>
          rw [List.erase_cons_tail (by simpa using hdash)]
          exact List.cons_ne_nil _ _
      | dash operands =>
          rw [List.erase_cons_head]
          intro hnone
          rw [List.map_eq_nil_iff.mp hnone] at hrun
          simp at hrun
  · exact h

/-- The words that are left have no say in the paths that there are, and may give them once. -/
theorem Progress.PathsAmong.takeWords {words : List (Text × Reading)} (h : p.PathsAmong given)
    (hread : AsRead words) (hgiven : (words.map Prod.fst).Sublist given)
    (htake : takeWords p words = .ok q) : q.PathsAmong given := by
  fun_induction Cli.takeWords p words with
  | case1 p =>
      cases htake
      exact h
  | case2 p word rest ih =>
      cases hread with
      | word _ _ hrest =>
          exact ih (h.of_eq rfl rfl) hrest ((List.sublist_cons_self _ _).trans hgiven) htake
  | case3 p word rest spec name _ _ value ih =>
      obtain ⟨o, ho, htake⟩ := bind_eq_ok.mp htake
      cases hread with
      | word _ _ hrest =>
          exact ih o (h.of_eq rfl (setValue_paths ho)) hrest
            ((List.sublist_cons_self _ _).trans hgiven) htake
  | case4 p word spec name _ value behind ih =>
      obtain ⟨o, ho, htake⟩ := bind_eq_ok.mp htake
      cases hread with
      | word _ _ hrest =>
          cases hrest with
          | word _ _ hrest =>
              exact ih o (h.of_eq rfl (setValue_paths ho)) hrest
                ((List.sublist_cons_self _ _).trans ((List.sublist_cons_self _ _).trans hgiven))
                htake
  | case5 => cases htake
  | case6 p word rest spec name attached _ ih =>
      obtain ⟨next, hnext, htake⟩ := bind_eq_ok.mp htake
      obtain ⟨hhas, hpaths⟩ := takeFlag_keeps hnext
      cases hread with
      | word _ _ hrest =>
          exact ih next (h.of_eq hhas hpaths) hrest
            ((List.sublist_cons_self _ _).trans hgiven) htake
  | case7 p word rest reading hunknown hoption ih =>
      have hoperand : reading.isOperand = true := by
        rcases Reading.operand_or_separator hunknown hoption with rfl | rfl <;> rfl
      have hbehind : AsRead (rest.dropWhile fun w => w.2.isOperand) := by
        simpa only [List.dropWhile_cons, hoperand, if_true] using hread.dropWhile
      refine ih (h.takeRun hread hgiven) hbehind ?_ htake
      exact ((List.dropWhile_sublist _).map Prod.fst).trans
        ((List.sublist_cons_self _ _).trans hgiven)

end

/-- A command line is accepted if its words can be read and used, with a path among them and none
of no use. -/
theorem ofArguments_eq_ok {arguments : List Text} {o : Options} :
    Options.ofArguments arguments = .ok o ↔
      ∃ words p, readWords arguments = .ok words ∧ takeWords {} words = .ok p ∧
        p.hasPaths = true ∧ p.unused = [] ∧ p.options = o := by
  simp only [Options.ofArguments, bind_eq_ok, mapError_eq_ok]
  constructor
  · rintro ⟨words, hwords, p, hp, h⟩
    split at h
    · cases h
    · next hhas =>
        split at h
        · cases h
        · next hunused =>
            cases h
            exact ⟨words, p, hwords, hp, by simpa using hhas, by simpa using hunused, rfl⟩
  · rintro ⟨words, p, hwords, hp, hhas, hunused, rfl⟩
    refine ⟨words, hwords, p, hp, ?_⟩
    rw [hhas, hunused]
    rfl

/-- An accepted command line has a path, and its paths stand in it in their order. -/
theorem ofArguments_paths {arguments : List Text} {o : Options}
    (h : Options.ofArguments arguments = .ok o) :
    o.paths ≠ [] ∧ o.paths.Sublist arguments := by
  obtain ⟨words, p, hwords, hp, hhas, _, rfl⟩ := ofArguments_eq_ok.mp h
  obtain ⟨hread, rfl⟩ := asRead_of_readWords hwords
  exact @Progress.PathsAmong.takeWords _ {} _ _ nofun hread (.refl _) hp hhas

/-! ## Any paths behind a double dash -/

/-- A double dash and what stands behind it, as they are read. -/
def dashed (operands : List Text) : List (Text × Reading) :=
  (doubleDash, .separator) :: operands.map fun w => (w, .operand)

section

variable {p q : Progress} {words : List (Text × Reading)} {operands : List Text}

theorem readWords_append_dash : ∀ {flags : List Text} {words : List (Text × Reading)},
    doubleDash ∉ flags → readWords flags = .ok words →
      readWords (flags ++ doubleDash :: operands) = .ok (words ++ dashed operands) ∧
        ∀ w ∈ words, w.2 ≠ .separator
  | [], words, _, h => by
      cases h
      exact ⟨rfl, nofun⟩
  | flag :: flags, words, hdash, h => by
      rw [List.mem_cons, not_or] at hdash
      have hflag : ¬ (flag == doubleDash) = true := by simpa using Ne.symm hdash.1
      unfold readWords at h
      rw [if_neg hflag] at h
      obtain ⟨reading, hreading, h⟩ := bind_eq_ok.mp h
      obtain ⟨behind, hbehind, h⟩ := bind_eq_ok.mp h
      cases h
      obtain ⟨happend, hseparator⟩ := readWords_append_dash hdash.2 hbehind
      refine ⟨?_, List.forall_mem_cons.mpr ⟨readWord_ne_separator hreading, hseparator⟩⟩
      rw [List.cons_append, readWords, if_neg hflag]
      exact bind_eq_ok.mpr ⟨reading, hreading, bind_eq_ok.mpr ⟨_, happend, rfl⟩⟩

theorem takeRun_hasPaths {run : List (Text × Reading)}
    (h : p.hasPaths = true ∨ run.any (fun w => w.2 == .operand) = true) :
    (p.takeRun run).hasPaths = true := by
  unfold Progress.takeRun
  split
  · rfl
  · next hnot =>
      rcases h with h | h
      · exact h
      · simpa [h] using hnot

/-- Paths are never taken back. -/
theorem hasPaths_of_takeWords (htake : takeWords p words = .ok q) (h : p.hasPaths = true) :
    q.hasPaths = true := by
  fun_induction takeWords p words with
  | case1 p =>
      cases htake
      exact h
  | case2 p word rest ih => exact ih htake h
  | case3 p word rest spec name _ _ value ih =>
      obtain ⟨o, _, htake⟩ := bind_eq_ok.mp htake
      exact ih o htake h
  | case4 p word spec name _ value behind ih =>
      obtain ⟨o, _, htake⟩ := bind_eq_ok.mp htake
      exact ih o htake h
  | case5 => cases htake
  | case6 p word rest spec name attached _ ih =>
      obtain ⟨next, hnext, htake⟩ := bind_eq_ok.mp htake
      exact ih next htake ((takeFlag_keeps hnext).1.trans h)
  | case7 p word rest reading _ _ ih => exact ih htake (takeRun_hasPaths (.inl h))

theorem takeWords_flag {word name : Text} {spec : OptionSpec} {attached : Option (Bool × Text)}
    {rest : List (Text × Reading)} (h : ¬ spec.takesValue = true) :
    takeWords p ((word, .option spec name attached) :: rest)
      = p.takeFlag spec name attached >>= fun next => takeWords next rest := by
  rw [takeWords.eq_def]
  simp only [if_neg h]

/-- Words without a path leave all behind a double dash to be taken. -/
theorem takeWords_append_dash (htake : takeWords p words = .ok q)
    (hseparator : ∀ w ∈ words, w.2 ≠ .separator) (hnone : q.hasPaths = false) :
    takeWords p (words ++ dashed operands) = takeWords q (dashed operands) := by
  fun_induction takeWords p words with
  | case1 p =>
      cases htake
      rfl
  | case2 p word rest ih =>
      rw [List.cons_append, takeWords]
      exact ih htake (List.forall_mem_cons.mp hseparator).2
  | case3 p word rest spec name hvalue _ value ih =>
      obtain ⟨o, ho, htake⟩ := bind_eq_ok.mp htake
      rw [List.cons_append, takeWords, if_pos hvalue, ho]
      exact ih o htake (List.forall_mem_cons.mp hseparator).2
  | case4 p word spec name hvalue value behind ih =>
      obtain ⟨o, ho, htake⟩ := bind_eq_ok.mp htake
      rw [List.cons_append, List.cons_append, takeWords, if_pos hvalue, ho]
      exact ih o htake (List.forall_mem_cons.mp (List.forall_mem_cons.mp hseparator).2).2
  | case5 => cases htake
  | case6 p word rest spec name attached hvalue ih =>
      obtain ⟨next, hnext, htake⟩ := bind_eq_ok.mp htake
      rw [List.cons_append, takeWords_flag hvalue, hnext]
      exact ih next htake (List.forall_mem_cons.mp hseparator).2
  | case7 p word rest reading hunknown hoption ih =>
      rcases Reading.operand_or_separator hunknown hoption with rfl | rfl
      · -- an operand would have been a path
        have hhas := hasPaths_of_takeWords htake (takeRun_hasPaths (.inr rfl))
        rw [hnone] at hhas
        cases hhas
      · exact absurd rfl (List.forall_mem_cons.mp hseparator).1

theorem takeRun_dashed (hnone : p.hasPaths = false) (hne : operands ≠ []) :
    p.takeRun (dashed operands)
      = { p with hasPaths := true, options := { p.options with paths := operands } } := by
  have hany : (dashed operands).any (fun w => w.2 == .operand) = true := by
    obtain ⟨first, rest, rfl⟩ := List.exists_cons_of_ne_nil hne
    rfl
  have hwords : ((dashed operands).map Prod.fst).erase doubleDash = operands := by
    rw [dashed, List.map_cons, List.erase_cons_head, map_fst_operands]
  simp only [Progress.takeRun, hnone, hany, hwords]
  rfl

theorem takeWords_dashed (hnone : p.hasPaths = false) (hne : operands ≠ []) :
    takeWords p (dashed operands)
      = .ok { p with hasPaths := true, options := { p.options with paths := operands } } := by
  rw [dashed, takeWords, List.takeWhile_eq_self_iff.mpr isOperand_of_mem_operands,
    List.dropWhile_eq_nil_iff.mpr isOperand_of_mem_operands, takeWords]
  · exact congrArg Except.ok (takeRun_dashed hnone hne)
  · intro hunknown
    cases hunknown
  · intro spec name attached hoption
    cases hoption

/-- An operand with nothing behind it is the only path. -/
theorem takeWords_operand {word : Text} (hnone : p.hasPaths = false) (hdash : word ≠ doubleDash) :
    takeWords p [(word, .operand)]
      = .ok { p with hasPaths := true, options := { p.options with paths := [word] } } := by
  have hpaths : [word].erase doubleDash = [word] := by
    rw [List.erase_cons_tail (by simpa using hdash), List.erase_nil]
  have hrun : p.takeRun [(word, .operand)]
      = { p with hasPaths := true, options := { p.options with paths := [word] } } := by
    simp only [Progress.takeRun, hnone, List.map_cons, List.map_nil, hpaths]
    rfl
  rw [takeWords, List.takeWhile_nil, List.dropWhile_nil, hrun, takeWords]
  · intro hunknown
    cases hunknown
  · intro spec name attached hoption
    cases hoption

end

/-- The words are options only: they can be read and used, and none is a path, a double dash, or of
no use. -/
def OnlyOptions (flags : List Text) (o : Options) : Prop :=
  doubleDash ∉ flags ∧
    ∃ words, readWords flags = .ok words ∧ takeWords {} words = .ok { options := o }

/-- Behind options and a double dash any texts are the paths. -/
theorem ofArguments_append_dash {flags paths : List Text} {o : Options} (h : OnlyOptions flags o)
    (hne : paths ≠ []) :
    Options.ofArguments (flags ++ doubleDash :: paths) = .ok { o with paths := paths } := by
  obtain ⟨hdash, words, hwords, htake⟩ := h
  obtain ⟨hread, hseparator⟩ := @readWords_append_dash paths _ _ hdash hwords
  have htaken := @takeWords_append_dash _ _ _ paths htake hseparator rfl
  rw [takeWords_dashed rfl hne] at htaken
  exact ofArguments_eq_ok.mpr ⟨_, _, hread, htaken, rfl, rfl, rfl⟩

end SyntaxChunks.Cli
