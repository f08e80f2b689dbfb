/-
# `Proofs.Accounting` — the printed summary accounts for every path

A run whose options, settings and table are in order chunks the paths of its command line.  If it
can write what there is to tell, it prints one line, and what is read of that line has one entry for
each path (`Json.AccountsFor`): a file that was read has chunks, though maybe none, and one that was
refused has an error.  The counters are those of the entries, and the exit status asks whether any
of them tells of an error (`run_accounts`).

It cannot write the chunks of a file whose path has no UTF-8 form, since they have no ids, nor a
line with a code point that the output has no form for.  Then the run fails and prints nothing; so
it does for a file that can be read, if the system knows it by bytes that are no UTF-8
(`run_fails_on_surrogate`).

The summary is that of the reports on the paths, and those are the same however many workers there
are and in whatever order they come to the end of their tasks.
-/
import SyntaxChunks.Proofs.Bulk
import SyntaxChunks.Proofs.CommandLine
import SyntaxChunks.Proofs.Coverage
import SyntaxChunks.Proofs.Identity
import SyntaxChunks.Proofs.SummaryText
import SyntaxChunks.Proofs.Tables

namespace SyntaxChunks

/-! ## What an entry tells -/

namespace Json

/-- The value of a key, if the value is an object that has it. -/
def member? (key : Text) : Json → Option Json
  | .obj members => get? key members
  | _ => none

/-- Does the entry tell of an error? -/
def tellsError (entry : Json) : Bool :=
  (entry.member? "error").isSome

/-- The number of chunks that the entry tells of. -/
def chunkCount (entry : Json) : Nat :=
  match entry.member? "chunks" with
  | some (.int count) => count.toNat
  | _ => 0

/-- The item shows a chunk, with its id, its place and its text. -/
structure ShowsChunk (c : Chunk) (item : Json) : Prop where
  id : ∃ id, c.id? = some id ∧ item.member? "id" = some (.str id)
  path : item.member? "path" = some (.str c.path)
  language : item.member? "language" = some (.str c.language)
  strategy : item.member? "strategy" = some (.str c.strategy.text)
  start_bytes : item.member? "start_bytes" = some (.int c.span.start)
  end_bytes : item.member? "end_bytes" = some (.int c.span.stop)
  start_rc : item.member? "start_rc"
    = some (.arr [.int c.startPoint.row, .int c.startPoint.column])
  end_rc : item.member? "end_rc" = some (.arr [.int c.stopPoint.row, .int c.stopPoint.column])
  chunk : item.member? "chunk" = some (.str c.text)

theorem showsChunk_of_toJson? {c : Chunk} {item : Json} (h : c.toJson? = some item) :
    item.ShowsChunk c := by
  obtain ⟨id, hid, rfl⟩ := Option.map_eq_some_iff.mp h
  exact ⟨⟨id, hid, rfl⟩, rfl, rfl, rfl, rfl, rfl, rfl, rfl, rfl⟩

/-- The entry accounts for a path.  It tells of an error exactly if the system refused the path, and
else of the number of chunks of the file, with all of them in the order of the document if they are
shown. -/
structure AccountsFor (grammars : Grammars) (files : FileSystem) (registry : Registry)
    (config : Config) (showsChunks : Bool) (path : Text) (entry : Json) : Prop where
  names : entry.member? "path" = some (.str path)
  tellsError_iff : entry.tellsError = true ↔
    ∃ fault place, files.read path = .error (.refused fault place)
  of_refused : ∀ fault place, files.read path = .error (.refused fault place) →
    entry.member? "error" = some (.str (ReadError.refused fault place).message) ∧
      entry.member? "chunks" = none
  of_read : ∀ contents, files.read path = .ok contents →
    ∃ chunks,
      chunkDocument grammars registry config
        (.of contents (some (Path.ofText path).suffix) path) = .ok chunks ∧
      Ascending (chunks.map Chunk.span) ∧
      entry.member? "chunks" = some (.int chunks.length) ∧
      (showsChunks = false → entry.member? "items" = none) ∧
      (showsChunks = true → ∃ items, entry.member? "items" = some (.arr items) ∧
        List.Forall₂ (fun c item => item.ShowsChunk c) chunks items)

end Json

namespace SummaryEntry

variable {showsChunks : Bool} {e : SummaryEntry} {entry : Json}

theorem tellsError_of_toJson? (h : e.toJson? showsChunks = some entry) :
    entry.tellsError = e.isFailed := by
  rcases toJson?_eq_some h with ⟨path, message, rfl, rfl⟩ |
    ⟨path, chunks, rfl, ⟨_, rfl⟩ | ⟨_, items, _, rfl⟩⟩
  · rfl
  · rfl
  · rfl

theorem chunkCount_of_toJson? (h : e.toJson? showsChunks = some entry) :
    entry.chunkCount = e.count := by
  rcases toJson?_eq_some h with ⟨path, message, rfl, rfl⟩ |
    ⟨path, chunks, rfl, ⟨_, rfl⟩ | ⟨_, items, _, rfl⟩⟩
  · rfl
  · rfl
  · rfl

end SummaryEntry

section

variable {grammars : Grammars} {files : FileSystem} {registry : Registry} {config : Config}
  {path : Text} {r : FileReport} {showsChunks : Bool}

theorem ofFile_eq_ok {d : Document} (h : Document.ofFile files path = .ok d) :
    ∃ contents, files.read path = .ok contents ∧
      d = .of contents (some (Path.ofText path).suffix) path := by
  obtain ⟨contents, hread, hd⟩ := bind_eq_ok.mp h
  exact ⟨contents, hread, (Except.ok.inj hd).symm⟩

/-- The entry of a report that tells of a path accounts for the path, if it can be written. -/
theorem FileReport.Tells.accountsFor (h : r.Tells grammars files registry config path)
    {entry : Json} (hentry : (SummaryEntry.of r).toJson? showsChunks = some entry) :
    entry.AccountsFor grammars files registry config showsChunks path := by
  cases h with
  | @chunked d chunks lines hfile hchunks =>
      obtain ⟨contents, hread, rfl⟩ := ofFile_eq_ok hfile
      obtain ⟨own, hown, hascending⟩ := chunkDocument_ascending grammars registry config
        (.of contents (some (Path.ofText path).suffix) path)
      rw [hchunks] at hown
      cases hown
      have hnames : entry.member? "path" = some (.str path) ∧
          entry.member? "chunks" = some (.int chunks.length) ∧
          (showsChunks = false → entry.member? "items" = none) ∧
          (showsChunks = true → ∃ items, entry.member? "items" = some (.arr items) ∧
            List.Forall₂ (fun c item => item.ShowsChunk c) chunks items) := by
        rcases SummaryEntry.toJson?_eq_some hentry with ⟨_, _, ⟨⟩, _⟩ |
          ⟨_, _, ⟨⟩, ⟨hshows, rfl⟩ | ⟨hshows, items, hitems, rfl⟩⟩
        · exact ⟨rfl, rfl, fun _ => rfl, fun hother => absurd (hshows.symm.trans hother) nofun⟩
        · exact ⟨rfl, rfl, fun hother => absurd (hshows.symm.trans hother) nofun,
            fun _ => ⟨items, rfl,
              (mapM_eq_some.mp hitems).imp fun _ _ => Json.showsChunk_of_toJson?⟩⟩
      refine ⟨hnames.1, ?_, ?_, ?_⟩
      · rw [SummaryEntry.tellsError_of_toJson? hentry, hread]
        simp [SummaryEntry.of, SummaryEntry.isFailed]
      · intro fault place hrefused
        rw [hread] at hrefused
        cases hrefused
      · intro contents' hread'
        rw [hread] at hread'
        cases hread'
        exact ⟨chunks, hchunks, hascending, hnames.2⟩
  | @unreadable fault place lines hread =>
      cases hentry
      refine ⟨rfl, ⟨fun _ => ⟨fault, place, hread⟩, fun _ => rfl⟩, ?_, ?_⟩
      · intro fault' place' hrefused
        rw [hread] at hrefused
        cases hrefused
        exact ⟨rfl, rfl⟩
      · intro contents hread'
        rw [hread] at hread'
        cases hread'

/-- The file can be read and has bytes, but no chunk of it has an id. -/
def Unnamed (files : FileSystem) (path : Text) : Prop :=
  path.utf8? = none ∧ ∃ contents, files.read path = .ok contents ∧ contents ≠ #[]

theorem FileReport.Tells.toJson?_eq_none_iff (h : r.Tells grammars files registry config path) :
    (SummaryEntry.of r).toJson? showsChunks = none ↔
      showsChunks = true ∧ Unnamed files path := by
  rw [SummaryEntry.toJson?_eq_none_iff]
  refine and_congr_right fun _ => ?_
  cases h with
  | @chunked d chunks lines hfile hchunks =>
      obtain ⟨contents, hread, rfl⟩ := ofFile_eq_ok hfile
      have hid : ∀ c ∈ chunks, c.id? = none ↔ path.utf8? = none := by
        intro c hc
        rw [id?_eq_none_iff, path_of_mem_chunkDocument hchunks c hc]
        rfl
      have hnil : chunks = [] ↔ contents = #[] := eq_nil_iff_of_chunkDocument hchunks
      constructor
      · rintro ⟨c, hc, hnone⟩
        refine ⟨(hid c hc).mp hnone, contents, hread, fun hempty => ?_⟩
        rw [hnil.mpr hempty] at hc
        cases hc
      · rintro ⟨hnone, contents', hread', hne⟩
        rw [hread] at hread'
        cases hread'
        obtain ⟨c, rest, rfl⟩ := List.exists_cons_of_ne_nil (mt hnil.mp hne)
        exact ⟨c, List.mem_cons_self, (hid c List.mem_cons_self).mpr hnone⟩
  | @unreadable fault place lines hread =>
      constructor
      · rintro ⟨_, hmem, _⟩
        cases hmem
      · rintro ⟨_, contents, hread', _⟩
        rw [hread] at hread'
        cases hread'

end

/-! ## Counting -/

section

variable {showsChunks : Bool} {es : List SummaryEntry} {entries : List Json}

theorem countP_isFailed
    (h : List.Forall₂ (fun e entry => e.toJson? showsChunks = some entry) es entries) :
    es.countP SummaryEntry.isFailed = entries.countP Json.tellsError := by
  induction h with
  | nil => rfl
  | cons he _ ih =>
      rw [List.countP_cons, List.countP_cons, ih, SummaryEntry.tellsError_of_toJson? he]

theorem sum_count
    (h : List.Forall₂ (fun e entry => e.toJson? showsChunks = some entry) es entries) :
    (es.map SummaryEntry.count).sum = (entries.map Json.chunkCount).sum := by
  induction h with
  | nil => rfl
  | cons he _ ih =>
      rw [List.map_cons, List.map_cons, List.sum_cons, List.sum_cons, ih,
        SummaryEntry.chunkCount_of_toJson? he]

theorem Summary.processed_add_failed (s : Summary) : s.processed + s.failed = s.entries.length :=
  Nat.sub_add_cancel List.countP_le_length

end

/-! ## Whole runs -/

/-- What a run leaves behind accounts for the paths of its options.  What is read of the line that
it printed, by a reader that allows for numbers of any length and for lists and objects nested six
deep, has these entries, one for each path in their order, with counters that are those of the
entries, and its exit status is one if an entry tells of an error and zero otherwise. -/
structure Cli.Outcome.Accounts (grammars : Grammars) (files : FileSystem) (registry : Registry)
    (config : Config) (o : Cli.Options) (entries : List Json) (processed failed total : Nat)
    (outcome : Cli.Outcome) : Prop where
  reads : ∀ limits : Json.Limits, limits.digits = none → 6 ≤ limits.depth →
    Json.parseWithin limits outcome.printed = .ok (.obj [("files", .arr entries),
      ("processed_files", .int processed), ("failed_files", .int failed),
      ("total_chunks", .int total)])
  entry_accounts : List.Forall₂
    (fun path entry => entry.AccountsFor grammars files registry config o.chunks path)
    o.paths entries
  failed_eq : failed = entries.countP Json.tellsError
  processed_add_failed : processed + failed = o.paths.length
  total_eq : total = (entries.map Json.chunkCount).sum
  exit_eq : outcome.exit = if 0 < failed then 1 else 0

section

variable {env : Environment} {files : FileSystem} {grammars : Grammars} {registry : Registry}
  {config : Config} {o : Cli.Options} {reports : List FileReport}

/-- A run with everything in order prints the summary of its reports, if it can. -/
theorem runWith_eq (output : Cli.Output)
    (hconfig : Config.ofEnvironment env o.overrides = .ok config)
    (htable : Registry.ofEnvironment env files = .ok registry)
    (hreports : chunkPaths grammars files registry config o.paths = .ok reports) :
    ∃ log, Cli.runWith env files grammars output o =
      (Cli.printedText output (Summary.of reports o.chunks)).map fun printed =>
        { exit := if (Summary.of reports o.chunks).failed = 0 then 0 else 1
          printed := printed
          log := log } := by
  unfold Cli.runWith
  rw [hconfig, htable]
  simp only [Except.mapError, bind, Except.bind, hreports]
  cases Cli.printedText output (Summary.of reports o.chunks) with
  | error e => exact ⟨[], rfl⟩
  | ok printed => exact ⟨_, rfl⟩

/-- The summary of reports that tell of some paths has an object unless a file is to be shown whose
chunks have no ids. -/
theorem toJson?_summary_eq_none_iff
    (htells : List.Forall₂ (FileReport.Tells grammars files registry config) o.paths reports) :
    (Summary.of reports o.chunks).toJson? = none ↔
      o.chunks = true ∧ ∃ p ∈ o.paths, Unnamed files p := by
  rw [Summary.toJson?, Option.map_eq_none_iff, mapM_eq_none]
  constructor
  · rintro ⟨e, he, hnone⟩
    obtain ⟨r, hr, rfl⟩ := List.mem_map.mp he
    obtain ⟨p, hp, htell⟩ := exists_of_mem_right htells hr
    obtain ⟨hshows, hunnamed⟩ := htell.toJson?_eq_none_iff.mp hnone
    exact ⟨hshows, p, hp, hunnamed⟩
  · rintro ⟨hshows, p, hp, hunnamed⟩
    obtain ⟨r, hr, htell⟩ := exists_of_mem_left htells hp
    exact ⟨_, List.mem_map_of_mem hr, htell.toJson?_eq_none_iff.mpr ⟨hshows, hunnamed⟩⟩

/-- The summary of reports that tell of the paths accounts for them. -/
theorem Summary.accounts {outcome : Cli.Outcome} {entries : List Json}
    (htells : List.Forall₂ (FileReport.Tells grammars files registry config) o.paths reports)
    (hentries : (Summary.of reports o.chunks).entries.mapM (SummaryEntry.toJson? o.chunks)
      = some entries)
    (hprinted : outcome.printed
      = ((Summary.of reports o.chunks).objectWith entries).render ++ Text.ofString "\n")
    (hexit : outcome.exit = if (Summary.of reports o.chunks).failed = 0 then 0 else 1) :
    outcome.Accounts grammars files registry config o entries
      (Summary.of reports o.chunks).processed (Summary.of reports o.chunks).failed
      (Summary.of reports o.chunks).total where
  reads limits hdigits hdepth := by
    rw [hprinted]
    exact Summary.parseWithin_printed hentries hdigits hdepth
  entry_accounts := by
    have hwritten := mapM_eq_some.mp hentries
    rw [Summary.of, List.forall₂_map_left_iff] at hwritten
    exact forall₂_comp (fun _ _ _ htell hentry => htell.accountsFor hentry) htells hwritten
  failed_eq := countP_isFailed (mapM_eq_some.mp hentries)
  processed_add_failed := by
    rw [processed_add_failed, Summary.of, List.length_map, htells.length_eq]
  total_eq := sum_count (mapM_eq_some.mp hentries)
  exit_eq := by
    rw [hexit]
    split <;> split <;> omega

/-- A run fails if chunks are to be shown that have no ids. -/
theorem runWith_of_unnamed (output : Cli.Output)
    (hconfig : Config.ofEnvironment env o.overrides = .ok config)
    (htable : Registry.ofEnvironment env files = .ok registry)
    (hreports : chunkPaths grammars files registry config o.paths = .ok reports)
    (htells : List.Forall₂ (FileReport.Tells grammars files registry config) o.paths reports)
    (hunnamed : o.chunks = true ∧ ∃ p ∈ o.paths, Unnamed files p) :
    Cli.runWith env files grammars output o = .error .notEncodable := by
  obtain ⟨log, hrun⟩ := runWith_eq output hconfig htable hreports
  rw [hrun, Cli.printedText, (toJson?_summary_eq_none_iff htells).mpr hunnamed]
  rfl

/-- Otherwise there is a line that accounts for the paths, with the surrogates of all of them in it,
and the run prints it unless the output has no form for a code point of it. -/
theorem runWith_of_named (output : Cli.Output)
    (hconfig : Config.ofEnvironment env o.overrides = .ok config)
    (htable : Registry.ofEnvironment env files = .ok registry)
    (hreports : chunkPaths grammars files registry config o.paths = .ok reports)
    (htells : List.Forall₂ (FileReport.Tells grammars files registry config) o.paths reports)
    (hnamed : ¬ (o.chunks = true ∧ ∃ p ∈ o.paths, Unnamed files p)) :
    ∃ text outcome entries processed failed total,
      outcome.printed = text ++ Text.ofString "\n" ∧
      Cli.runWith env files grammars output o
        = (if text.all output then .ok outcome else .error .notEncodable) ∧
      (∀ p ∈ o.paths, ∀ x, .surrogate x ∈ p → .surrogate x ∈ text) ∧
      outcome.Accounts grammars files registry config o entries processed failed total ∧
      (Summary.of reports o.chunks).entries.mapM (SummaryEntry.toJson? o.chunks)
        = some entries := by
  obtain ⟨log, hrun⟩ := runWith_eq output hconfig htable hreports
  obtain ⟨value, hvalue⟩ :=
    Option.ne_none_iff_exists'.mp (mt (toJson?_summary_eq_none_iff htells).mp hnamed)
  obtain ⟨entries, hentries, rfl⟩ := Option.map_eq_some_iff.mp hvalue
  let text := ((Summary.of reports o.chunks).objectWith entries).render
  let outcome : Cli.Outcome :=
    { exit := if (Summary.of reports o.chunks).failed = 0 then 0 else 1
      printed := text ++ Text.ofString "\n"
      log := log }
  refine ⟨text, outcome, entries, _, _, _, rfl, ?_, fun p hp x hx => ?_,
    Summary.accounts htells hentries rfl rfl, hentries⟩
  · rw [hrun, Cli.printedText, hvalue]
    by_cases hforms : text.all output = true
    · exact (congrArg _ (if_pos hforms)).trans (if_pos hforms).symm
    · exact (congrArg _ (if_neg hforms)).trans (if_neg hforms).symm
  · obtain ⟨r, hr, htell⟩ := exists_of_mem_left htells hp
    refine Summary.surrogate_mem_render hentries (List.mem_map_of_mem hr) ?_
    rw [SummaryEntry.path_of, htell.path_eq]
    exact hx

end

/-- A run on an accepted command line whose settings and table are in order, where the system gives
or refuses each of the paths.  There is a path, and the paths stand in the command line in their
order; any texts can be the paths of one (`Cli.ofArguments_append_dash`).  If chunks are to be shown
and some file with bytes has none with an id, the run fails.  Otherwise there is a line that
accounts for the paths, and the run prints it, unless the output has no form for a code point of the
line; then it fails too.  All surrogates of the paths stand in the line.  Whatever the number of
workers that is asked for, the entries of the line are those of the reports that come in whenever
all tasks are collected. -/
theorem run_accounts {env : Environment} {files : FileSystem} {grammars : Grammars}
    {registry : Registry} {config : Config} {arguments : List Text} {o : Cli.Options}
    (output : Cli.Output) (hoptions : Cli.Options.ofArguments arguments = .ok o)
    (hconfig : Config.ofEnvironment env o.overrides = .ok config)
    (htable : Registry.ofEnvironment env files = .ok registry)
    (hread : ∀ p ∈ o.paths, ∀ fault, files.read p ≠ .error (.notAPath fault)) :
    (o.paths ≠ [] ∧ o.paths.Sublist arguments) ∧
    ((o.chunks = true ∧ ∃ p ∈ o.paths, Unnamed files p) →
      Cli.run env files grammars output arguments = .error .notEncodable) ∧
    (¬ (o.chunks = true ∧ ∃ p ∈ o.paths, Unnamed files p) →
      ∃ text outcome entries processed failed total,
        outcome.printed = text ++ Text.ofString "\n" ∧
        Cli.run env files grammars output arguments
          = (if text.all output then .ok outcome else .error .notEncodable) ∧
        (∀ p ∈ o.paths, ∀ x, .surrogate x ∈ p → .surrogate x ∈ text) ∧
        outcome.Accounts grammars files registry config o entries processed failed total ∧
        ∀ moves pool,
          (Pool.ofTasks o.paths.length).run (workerCount o.workers o.paths.length) moves
            = some pool →
          pool.isDone = true →
            ∃ reports,
              chunkPathsIn pool.collected (reportFile grammars files registry config) o.paths
                = .ok reports ∧
              (Summary.of reports o.chunks).entries.mapM (SummaryEntry.toJson? o.chunks)
                = some entries) := by
  obtain ⟨reports, hreports, htells⟩ :=
    exists_reports grammars files registry config fun p hp => fault?_eq_none_of_read (hread p hp)
  have hchunks := chunkPaths_eq_ok_iff.mpr hreports
  have hrun : Cli.run env files grammars output arguments
      = Cli.runWith env files grammars output o := by
    rw [Cli.run, hoptions]
  rw [hrun]
  refine ⟨Cli.ofArguments_paths hoptions, runWith_of_unnamed output hconfig htable hchunks htells,
    fun hnamed => ?_⟩
  obtain ⟨text, outcome, entries, processed, failed, total, hprinted, hresult, hsurrogates,
    haccounts, hentries⟩ := runWith_of_named output hconfig htable hchunks htells hnamed
  refine ⟨text, outcome, entries, processed, failed, total, hprinted, hresult, hsurrogates,
    haccounts, ?_⟩
  intro moves pool hmoves hdone
  refine ⟨reports, ?_, hentries⟩
  exact (chunkPathsIn_eq_ok_iff (fun _ _ => reportFile_path)
    (Pool.collected_perm hmoves hdone)).mpr hreports

/-- A folder with a file that has a text, a file that has no bytes, and a folder in it. -/
def mixedFolder : Folder :=
  .ofPaths [("a", .file #[120, 10]), ("e", .file #[]), ("d", .folder)]

/-- Every path of the folder, one of them twice. -/
def mixedPaths : List Text := ["a", "d", "e", "a"]

/-- Words that ask for chunks and for less than one worker. -/
def mixedFlags : List Text := ["--chunks", "--workers=-1"]

theorem onlyOptions_mixedFlags :
    Cli.OnlyOptions mixedFlags { workers := -1, chunks := true } := by
  refine ⟨by decide, _, show Cli.readWords mixedFlags = .ok [
    (("--chunks" : Text), .option ⟨.chunks, ["--chunks"], false⟩ "--chunks" none),
    (("--workers=-1" : Text),
      .option ⟨.workers, ["--workers"], true⟩ "--workers" (some (true, "-1")))]
    by decide +kernel, ?_⟩
  have hvalue : Cli.Options.setValue { chunks := true } ⟨.workers, ["--workers"], true⟩ "-1"
      = .ok { workers := -1, chunks := true } := by decide +kernel
  rw [Cli.takeWords_flag (by decide)]
  refine bind_eq_ok.mpr ⟨{ options := { chunks := true } }, rfl, ?_⟩
  rw [Cli.takeWords, if_pos rfl]
  exact bind_eq_ok.mpr ⟨_, hvalue, Cli.takeWords.eq_1 _⟩

theorem run_accounts_mixedFolder :
    ∃ registry outcome,
      Cli.Options.ofArguments (mixedFlags ++ Cli.doubleDash :: mixedPaths)
        = .ok { workers := -1, chunks := true, paths := mixedPaths } ∧
      Config.ofEnvironment (fun _ => none)
        (Cli.Options.overrides { workers := -1, chunks := true, paths := mixedPaths })
        = .ok .standard ∧
      Registry.ofEnvironment (fun _ => none) mixedFolder.fileSystem = .ok registry ∧
      (∀ p ∈ mixedPaths, ∀ fault, mixedFolder.fileSystem.read p ≠ .error (.notAPath fault)) ∧
      (¬ (true = true ∧ ∃ p ∈ mixedPaths, Unnamed mixedFolder.fileSystem p)) ∧
      Cli.run (fun _ => none) mixedFolder.fileSystem noGrammars .verbatim
        (mixedFlags ++ Cli.doubleDash :: mixedPaths) = .ok outcome ∧
      outcome.exit = 1 := by
  have hoptions : Cli.Options.ofArguments (mixedFlags ++ Cli.doubleDash :: mixedPaths)
      = .ok { workers := -1, chunks := true, paths := mixedPaths } :=
    Cli.ofArguments_append_dash onlyOptions_mixedFlags (List.cons_ne_nil _ _)
  have hconfig : Config.ofEnvironment (fun _ => none)
      (Cli.Options.overrides { workers := -1, chunks := true, paths := mixedPaths })
      = .ok .standard := by decide +kernel
  obtain ⟨registry, htable⟩ :=
    @Registry.exists_ofEnvironment_eq_ok (fun _ => none) mixedFolder.fileSystem rfl
  have hread : ∀ p ∈ mixedPaths, ∀ fault,
      mixedFolder.fileSystem.read p ≠ .error (.notAPath fault) := by
    intro p hp fault hfail
    have hpaths : ∀ p ∈ mixedPaths, Path.fault? p = none := by decide +kernel
    rw [read_eq_notAPath_iff, hpaths p hp] at hfail
    cases hfail
  have hnamed : ¬ (true = true ∧ ∃ p ∈ mixedPaths, Unnamed mixedFolder.fileSystem p) := by
    rintro ⟨_, p, hp, hnone, _⟩
    have hforms : ∀ p ∈ mixedPaths, p.utf8? ≠ none := by decide +kernel
    exact hforms p hp hnone
  obtain ⟨_, _, hprints⟩ :=
    @run_accounts (fun _ => none) mixedFolder.fileSystem noGrammars registry .standard _ _
      .verbatim hoptions hconfig htable hread
  obtain ⟨text, outcome, entries, processed, failed, total, _, hrun, _, haccounts, _⟩ :=
    hprints hnamed
  have hforms : text.all Cli.Output.verbatim = true := List.all_eq_true.mpr fun _ _ => rfl
  rw [if_pos hforms] at hrun
  have hrefused : mixedFolder.fileSystem.read ("d" : Text) = .error (.refused .isFolder "d") := by
    decide +kernel
  have hfailed : 0 < failed := by
    obtain ⟨_, _, _, hbehind, hentries⟩ := List.forall₂_cons_left_iff.mp haccounts.entry_accounts
    obtain ⟨entry, _, hentry, _, rfl⟩ := List.forall₂_cons_left_iff.mp hbehind
    rw [haccounts.failed_eq, hentries, List.countP_pos_iff]
    exact ⟨entry, by simp, hentry.tellsError_iff.mpr ⟨_, _, hrefused⟩⟩
  refine ⟨registry, outcome, hoptions, hconfig, htable, hread, hnamed, hrun, ?_⟩
  rw [haccounts.exit_eq, if_pos hfailed]

/-- A folder with one file, whose name is no UTF-8. -/
def foreignFolder : Folder :=
  ⟨[([[97, 0xFF, 46, 112, 121]], .file #[120, 10])]⟩

/-- The byte that is no UTF-8, as a text holds it. -/
def foreignByte : Surrogate :=
  ⟨0xDCFF, by decide, by decide⟩

/-- The path of the file. -/
def foreignPath : Text :=
  [.char 'a', .surrogate foreignByte, .char '.', .char 'p', .char 'y']

/-- A file that can be read by a path with a surrogate has no summary: if chunks are to be shown,
whatever the output has a form for, and else if the output writes UTF-8. -/
theorem run_fails_on_surrogate :
    foreignFolder.fileSystem.read foreignPath = .ok #[120, 10] ∧
    (∀ output, Cli.run (fun _ => none) foreignFolder.fileSystem noGrammars output
      ["--chunks", foreignPath] = .error .notEncodable) ∧
    Cli.run (fun _ => none) foreignFolder.fileSystem noGrammars .utf8 [foreignPath]
      = .error .notEncodable := by
  have hread : foreignFolder.fileSystem.read foreignPath = .ok #[120, 10] := by decide +kernel
  obtain ⟨registry, htable⟩ :=
    @Registry.exists_ofEnvironment_eq_ok (fun _ => none) foreignFolder.fileSystem rfl
  have hpaths : ∀ p ∈ [foreignPath], Path.fault? p = none := by decide +kernel
  obtain ⟨reports, hreports, htells⟩ :=
    exists_reports noGrammars foreignFolder.fileSystem registry .standard hpaths
  have hchunks := chunkPaths_eq_ok_iff.mpr hreports
  refine ⟨hread, fun output => ?_, ?_⟩
  · have hoptions : Cli.Options.ofArguments ["--chunks", foreignPath]
        = .ok { chunks := true, paths := [foreignPath] } := by
      refine Cli.ofArguments_eq_ok.mpr
        ⟨_, ⟨{ chunks := true, paths := [foreignPath] }, true, []⟩, rfl, ?_, rfl, rfl, rfl⟩
      rw [Cli.takeWords_flag (by decide)]
      refine bind_eq_ok.mpr ⟨{ options := { chunks := true } }, rfl, ?_⟩
      exact Cli.takeWords_operand rfl (by decide)
    have hunnamed : Unnamed foreignFolder.fileSystem foreignPath :=
      ⟨by decide +kernel, _, hread, by decide⟩
    rw [Cli.run, hoptions]
    exact runWith_of_unnamed output rfl htable hchunks htells
      ⟨rfl, foreignPath, List.mem_singleton_self _, hunnamed⟩
  · have hoptions : Cli.Options.ofArguments [foreignPath] = .ok { paths := [foreignPath] } :=
      Cli.ofArguments_eq_ok.mpr
        ⟨_, _, rfl, Cli.takeWords_operand rfl (by decide), rfl, rfl, rfl⟩
    have hconfig : Config.ofEnvironment (fun _ => none)
        (Cli.Options.overrides { paths := [foreignPath] }) = .ok .standard := rfl
    have hnamed : ¬ (false = true ∧ ∃ p ∈ [foreignPath], Unnamed foreignFolder.fileSystem p) := by
      rintro ⟨⟨⟩, _⟩
    obtain ⟨text, outcome, _, _, _, _, _, hrun, hsurrogates, _⟩ :=
      runWith_of_named .utf8 hconfig htable hchunks htells hnamed
    have hforms : ¬ text.all Cli.Output.utf8 = true := by
      intro hall
      have hmem := hsurrogates foreignPath (List.mem_singleton_self _) foreignByte (by decide)
      cases List.all_eq_true.mp hall _ hmem
    rw [Cli.run, hoptions]
    exact hrun.trans (if_neg hforms)

end SyntaxChunks
