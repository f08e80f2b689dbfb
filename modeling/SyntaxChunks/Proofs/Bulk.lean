/-
# `Proofs.Bulk` — many files, in any order and each for itself

Reports are kept by path, and all reports on one path are the same, so it does
not matter which of them is kept, nor in which order they come in: whenever each
position is reported on once, what is read back is what reporting on the paths
one by one gives (`chunkPathsIn_eq_ok_iff`).

* `reportFile_cases` — what can be said of one path: its chunks, the refusal of
  the system, or that it is no path at all.
* `chunkPaths_any_schedule` — any run of any number of workers gives these
  reports, one for each position.
* `chunkPaths_isolates` — a path that is refused has no part in the reports on
  the others.  A text that is no path leaves no report on any.
* `chunkPathsGiven_eq`, `chunkGiven_eq` — a registry that is left to the program
  makes no difference once it is found.
-/
import SyntaxChunks.Bulk
import SyntaxChunks.Proofs.Chunking
import SyntaxChunks.Proofs.Workers

namespace SyntaxChunks

/-! ## Reports kept by path -/

section

variable {r : FileReport}

theorem mem_collect : ∀ {reports kept : List FileReport},
    r ∈ collect kept reports → r ∈ kept ∨ r ∈ reports
  | [], _, h => .inl h
  | a :: rest, kept, h => by
      rw [collect] at h
      rcases mem_collect h with hkept | hrest
      · rcases List.mem_cons.mp hkept with rfl | hkept
        · exact .inr List.mem_cons_self
        · exact .inl (List.mem_filter.mp hkept).1
      · exact .inr (List.mem_cons_of_mem a hrest)

/-- A path that there is a report on keeps one. -/
theorem exists_path_collect : ∀ (reports kept : List FileReport) (r : FileReport),
    r ∈ kept ∨ r ∈ reports → ∃ k ∈ collect kept reports, k.path = r.path
  | [], _, r, h => ⟨r, h.resolve_right List.not_mem_nil, rfl⟩
  | a :: rest, kept, r, h => by
      rw [collect]
      by_cases hpath : r.path = a.path
      · rw [hpath]
        exact exists_path_collect rest _ a (.inl List.mem_cons_self)
      · refine exists_path_collect rest _ r ?_
        rcases h with hkept | hreports
        · exact .inl (List.mem_cons_of_mem a
            (List.mem_filter.mpr ⟨hkept, bne_iff_ne.mpr hpath⟩))
        · exact .inr ((List.mem_cons.mp hreports).resolve_left fun h => hpath (h ▸ rfl))

theorem readBack_eq {kept reports : List FileReport} {paths : List Text}
    (h : List.Forall₂ (fun p r => kept.find? (fun k => k.path == p) = some r) paths reports) :
    readBack kept paths = reports := by
  induction h with
  | nil => rfl
  | cons hfind _ ih => rw [readBack, List.filterMap_cons, hfind, ← ih, readBack]

end

/-! ## Any order -/

section

variable {report : Text → Except Failure FileReport} {paths : List Text} {order : List Nat}
  {reports : List FileReport}

/-- Going through the positions in another order, one meets the same paths. -/
theorem mem_filterMap_positions (horder : order.Perm (List.range paths.length)) {p : Text} :
    p ∈ order.filterMap (fun i => paths[i]?) ↔ p ∈ paths := by
  rw [List.mem_filterMap, List.mem_iff_getElem?]
  constructor
  · rintro ⟨i, _, hi⟩
    exact ⟨i, hi⟩
  · rintro ⟨i, hi⟩
    obtain ⟨hlt, _⟩ := List.getElem?_eq_some_iff.mp hi
    exact ⟨i, horder.mem_iff.mpr (List.mem_range.mpr hlt), hi⟩

/-- What is kept on a path is the report on it, whichever one came in last. -/
theorem find?_collect {finished : List FileReport} (hpath : ∀ p r, report p = .ok r → r.path = p)
    (h : List.Forall₂ (fun p r => report p = .ok r) paths finished) {p : Text} {r : FileReport}
    (hp : p ∈ paths) (hr : report p = .ok r) :
    (collect [] finished).find? (fun k => k.path == p) = some r := by
  have hsame : ∀ k ∈ collect [] finished, k.path = p → k = r := by
    intro k hk hkpath
    obtain ⟨q, _, hq⟩ :=
      exists_of_mem_right h ((mem_collect hk).resolve_left List.not_mem_nil)
    rw [← hkpath, hpath q k hq, hq] at hr
    exact Except.ok.inj hr
  obtain ⟨own, hown, hreport⟩ := exists_of_mem_left h hp
  obtain ⟨k, hk, hkpath⟩ := exists_path_collect finished [] own (.inr hown)
  rw [hpath p own hreport] at hkpath
  cases hfind : (collect [] finished).find? fun k => k.path == p with
  | none => exact absurd (beq_iff_eq.mpr hkpath) (List.find?_eq_none.mp hfind k hk)
  | some found =>
      have hfound := List.find?_some hfind
      rw [hsame found (List.mem_of_find?_eq_some hfind) (beq_iff_eq.mp hfound)]

/-- Once all are done, the reports on the paths are read back in their order. -/
theorem readBack_collect {finished : List FileReport}
    (hpath : ∀ p r, report p = .ok r → r.path = p)
    (horder : order.Perm (List.range paths.length))
    (hfinished : (order.filterMap fun i => paths[i]?).mapM report = .ok finished)
    (h : List.Forall₂ (fun p r => report p = .ok r) paths reports) :
    readBack (collect [] finished) paths = reports := by
  have hmem : List.Forall₂ (fun p r => p ∈ (order.filterMap fun i => paths[i]?) ∧ report p = .ok r)
      paths reports :=
    (List.forall₂_and_left _ _).mpr ⟨fun _ hp => (mem_filterMap_positions horder).mpr hp, h⟩
  refine readBack_eq (hmem.imp ?_)
  rintro p r ⟨hp, hr⟩
  exact find?_collect hpath (mapM_eq_ok.mp hfinished) hp hr

/-- In any order, reports are given exactly if there is one on each path, and are those. -/
theorem chunkPathsIn_eq_ok_iff (hpath : ∀ p r, report p = .ok r → r.path = p)
    (horder : order.Perm (List.range paths.length)) :
    chunkPathsIn order report paths = .ok reports ↔
      List.Forall₂ (fun p r => report p = .ok r) paths reports := by
  rw [chunkPathsIn, bind_eq_ok]
  constructor
  · rintro ⟨finished, hfinished, heq⟩
    have hall : ∀ p ∈ paths, ∃ r, report p = .ok r := by
      intro p hp
      obtain ⟨r, _, hr⟩ :=
        exists_of_mem_left (mapM_eq_ok.mp hfinished) ((mem_filterMap_positions horder).mpr hp)
      exact ⟨r, hr⟩
    obtain ⟨own, hown⟩ := exists_mapM_eq_ok hall
    have hown := mapM_eq_ok.mp hown
    rw [readBack_collect hpath horder hfinished hown] at heq
    exact Except.ok.inj heq ▸ hown
  · intro h
    have hall : ∀ p ∈ order.filterMap (fun i => paths[i]?), ∃ r, report p = .ok r := by
      intro p hp
      obtain ⟨r, _, hr⟩ := exists_of_mem_left h ((mem_filterMap_positions horder).mp hp)
      exact ⟨r, hr⟩
    obtain ⟨finished, hfinished⟩ := exists_mapM_eq_ok hall
    refine ⟨finished, hfinished, ?_⟩
    rw [readBack_collect hpath horder hfinished h]
    rfl

end

/-! ## One path -/

/-- The report says of the path what is the case: it has the chunks of its file's document, or the
error with which the system refused it. -/
inductive FileReport.Tells (grammars : Grammars) (files : FileSystem) (registry : Registry)
    (config : Config) (path : Text) : FileReport → Prop
  | chunked {d : Document} {chunks : List Chunk} {lines : List Log.Line} :
      Document.ofFile files path = .ok d → chunkDocument grammars registry config d = .ok chunks →
      FileReport.Tells grammars files registry config path ⟨path, .chunked chunks, lines⟩
  | unreadable {fault : ReadFault} {place : Text} {lines : List Log.Line} :
      files.read path = .error (.refused fault place) →
      FileReport.Tells grammars files registry config path
        ⟨path, .unreadable (ReadError.refused fault place).message, lines⟩

section

variable {grammars : Grammars} {files : FileSystem} {registry : Registry} {config : Config}
  {path : Text}

/-- A text is no path if the system has no bytes for it, or if it holds a null character. -/
theorem fault?_eq_none_iff :
    Path.fault? path = none ↔ path.systemBytes? ≠ none ∧ .char '\x00' ∉ path := by
  unfold Path.fault?
  by_cases hbytes : path.systemBytes? = none
  · simp [hbytes]
  · simp [hbytes]

theorem read_of_fault {fault : PathFault} (h : Path.fault? path = some fault) :
    files.read path = .error (.notAPath fault) := by
  rw [FileSystem.read, h]

/-- A text that is no path is told apart from one that the system refuses. -/
theorem read_eq_notAPath_iff {fault : PathFault} :
    files.read path = .error (.notAPath fault) ↔ Path.fault? path = some fault := by
  refine ⟨fun h => ?_, read_of_fault⟩
  unfold FileSystem.read at h
  split at h
  · next hfault =>
      cases h
      exact hfault
  · cases hread : files (Path.ofText path) with
    | ok contents =>
        rw [hread] at h
        cases h
    | error fault =>
        rw [hread] at h
        cases h

/-- What the system gives or refuses is a path. -/
theorem fault?_eq_none_of_read (h : ∀ fault, files.read path ≠ .error (.notAPath fault)) :
    Path.fault? path = none :=
  Option.eq_none_iff_forall_ne_some.mpr fun fault hfault => h fault (read_of_fault hfault)

theorem ofFile_eq {contents : Contents} (h : files.read path = .ok contents) :
    Document.ofFile files path
      = .ok (.of contents (some (Path.ofText path).suffix) path) := by
  rw [Document.ofFile, h]
  rfl

theorem chunkFile_of_refused (grammars : Grammars) (registry : Registry) (config : Config)
    {cause : ReadError} (h : files.read path = .error cause) :
    chunkFile grammars files registry config path = .error (.read cause) := by
  rw [chunkFile, Document.ofFile, h]
  rfl

/-- A file that can be read has chunks, since every document has. -/
theorem exists_chunkFile (grammars : Grammars) (registry : Registry) (config : Config)
    {d : Document} (h : Document.ofFile files path = .ok d) :
    ∃ chunks, chunkDocument grammars registry config d = .ok chunks ∧
      chunkFile grammars files registry config path
        = .ok (d, route grammars registry config d, chunks) := by
  obtain ⟨chunks, hchunks, _⟩ := chunkDocument_cases grammars registry config d
  refine ⟨chunks, hchunks, ?_⟩
  rw [chunkDocument] at hchunks
  rw [chunkFile, h]
  simp only [Except.mapError, bind, Except.bind, hchunks, pure, Except.pure]

/-- The report on a path tells of it, unless it is none. -/
theorem reportFile_cases (grammars : Grammars) (files : FileSystem) (registry : Registry)
    (config : Config) (path : Text) :
    (∃ fault, Path.fault? path = some fault ∧
        reportFile grammars files registry config path = .error (.read (.notAPath fault))) ∨
      Path.fault? path = none ∧
        ∃ r, reportFile grammars files registry config path = .ok r ∧
          FileReport.Tells grammars files registry config path r := by
  cases hread : files.read path with
  | ok contents =>
      have hnone : Path.fault? path = none :=
        fault?_eq_none_of_read fun _ hfail => nomatch hread.symm.trans hfail
      have hfile := ofFile_eq hread
      obtain ⟨chunks, hchunks, hrun⟩ := exists_chunkFile grammars registry config hfile
      rw [reportFile, hrun]
      exact .inr ⟨hnone, _, rfl, .chunked hfile hchunks⟩
  | error cause =>
      have hrun := chunkFile_of_refused grammars registry config hread
      cases cause with
      | notAPath fault =>
          rw [reportFile, hrun]
          exact .inl ⟨fault, read_eq_notAPath_iff.mp hread, rfl⟩
      | refused fault place =>
          have hnone : Path.fault? path = none :=
            fault?_eq_none_of_read fun _ hfail => nomatch hread.symm.trans hfail
          rw [reportFile, hrun]
          exact .inr ⟨hnone, _, rfl, .unreadable hread⟩

theorem FileReport.Tells.path_eq {r : FileReport}
    (h : r.Tells grammars files registry config path) : r.path = path := by
  cases h with
  | chunked _ _ => rfl
  | unreadable _ => rfl

theorem reportFile_path {r : FileReport}
    (h : reportFile grammars files registry config path = .ok r) : r.path = path := by
  rcases reportFile_cases grammars files registry config path with
    ⟨_, _, hfail⟩ | ⟨_, own, hown, htells⟩
  · rw [hfail] at h
    cases h
  · rw [hown] at h
    cases h
    exact htells.path_eq

end

/-! ## All paths -/

section

variable {grammars : Grammars} {files : FileSystem} {registry : Registry} {config : Config}
  {paths : List Text} {reports : List FileReport}

theorem chunkPaths_eq_ok_iff :
    chunkPaths grammars files registry config paths = .ok reports ↔
      List.Forall₂ (fun p r => reportFile grammars files registry config p = .ok r) paths reports :=
  chunkPathsIn_eq_ok_iff (fun _ _ => reportFile_path) (.refl _)

/-- There are reports if there is one on each path, and they tell of their paths. -/
theorem exists_reports (grammars : Grammars) (files : FileSystem) (registry : Registry)
    (config : Config)
    (hpaths : ∀ p ∈ paths, Path.fault? p = none) :
    ∃ reports,
      List.Forall₂ (fun p r => reportFile grammars files registry config p = .ok r) paths reports ∧
      List.Forall₂ (FileReport.Tells grammars files registry config) paths reports := by
  have hall : ∀ p ∈ paths, ∃ r, reportFile grammars files registry config p = .ok r := by
    intro p hp
    rcases reportFile_cases grammars files registry config p with ⟨_, hfault, _⟩ | ⟨_, r, hr, _⟩
    · rw [hpaths p hp] at hfault
      cases hfault
    · exact ⟨r, hr⟩
  obtain ⟨reports, hreports⟩ := exists_mapM_eq_ok hall
  have hreports := mapM_eq_ok.mp hreports
  refine ⟨reports, hreports, hreports.imp fun p r hr => ?_⟩
  rcases reportFile_cases grammars files registry config p with
    ⟨_, _, hfail⟩ | ⟨_, own, hown, htells⟩
  · rw [hfail] at hr
    cases hr
  · rw [hown] at hr
    exact Except.ok.inj hr ▸ htells

/-- A run of a pool of workers on some paths, each of which can be read or is refused.  However
many workers are asked for, no more than `workerCount` tasks run at once, the run goes on until
all are collected, and no longer than that; then there is one report for each position, in the
order of the paths, that tells of its path.  The reports are the same in all these runs, though
tasks can be collected in any order there is. -/
theorem chunkPaths_any_schedule (grammars : Grammars) (files : FileSystem) (registry : Registry)
    (config : Config) (paths : List Text)
    (hread : ∀ p ∈ paths, ∀ fault, files.read p ≠ .error (.notAPath fault)) :
    ∃ reports, chunkPaths grammars files registry config paths = .ok reports ∧
      List.Forall₂ (FileReport.Tells grammars files registry config) paths reports ∧
      ∀ asked : Int,
        (∀ moves pool,
          (Pool.ofTasks paths.length).run (workerCount asked paths.length) moves = some pool →
            pool.running.length ≤ workerCount asked paths.length ∧
            moves.length ≤ 3 * paths.length ∧
            (pool.isDone = false →
              ∃ m next, pool.step (workerCount asked paths.length) m = some next) ∧
            (pool.isDone = true →
              chunkPathsIn pool.collected (reportFile grammars files registry config) paths
                = .ok reports)) ∧
        ∀ order, order.Perm (List.range paths.length) → ∃ moves,
          (Pool.ofTasks paths.length).run (workerCount asked paths.length) moves
            = some ⟨[], [], [], order⟩ := by
  obtain ⟨reports, hreports, htells⟩ :=
    exists_reports grammars files registry config fun p hp => fault?_eq_none_of_read (hread p hp)
  refine ⟨reports, chunkPaths_eq_ok_iff.mpr hreports, htells, fun asked => ⟨?_, ?_⟩⟩
  · intro moves pool hrun
    have hpos := workerCount_pos asked paths.length
    refine ⟨Pool.run_running_le (Nat.zero_le _) hrun, Pool.length_le_of_run hrun,
      Pool.exists_step hpos, fun hdone => ?_⟩
    exact (chunkPathsIn_eq_ok_iff (fun _ _ => reportFile_path)
      (Pool.collected_perm hrun hdone)).mpr hreports
  · intro order horder
    exact Pool.exists_run_collected (workerCount_pos asked paths.length) horder

end

/-- A folder with a file that has no bytes, and a folder in it. -/
def smallFolder : Folder :=
  .ofPaths [("a", .file #[]), ("d", .folder)]

/-- The leaf that is found in every text. -/
def loneLeaf : Node :=
  ⟨"leaf", 0, 1, false, []⟩

/-- Two tasks are taken and end before any is collected, the third one is collected first. -/
def crossedMoves : List Move :=
  [.take, .finish 0, .take, .finish 0, .take, .finish 0, .collect 2, .collect 0, .collect 0]

/-- A file, a folder, and the file again. -/
def smallPaths : List Text := ["a", "d", "a"]

theorem fault?_smallPaths : ∀ p ∈ smallPaths, Path.fault? p = none := by
  decide +kernel

theorem chunkPaths_any_schedule_crossed :
    (∀ p ∈ smallPaths, ∀ fault, smallFolder.fileSystem.read p ≠ .error (.notAPath fault)) ∧
    (Pool.ofTasks 3).run (workerCount (-1) 3) crossedMoves = some ⟨[], [], [], [2, 0, 1]⟩ ∧
    ∃ reports,
      chunkPaths noGrammars smallFolder.fileSystem (.fixed loneLeaf) .standard smallPaths
        = .ok reports ∧
      chunkPathsIn [2, 0, 1]
        (reportFile noGrammars smallFolder.fileSystem (.fixed loneLeaf) .standard) smallPaths
        = .ok reports := by
  have hread : ∀ p ∈ smallPaths, ∀ fault,
      smallFolder.fileSystem.read p ≠ .error (.notAPath fault) := by
    intro p hp fault hfail
    rw [read_eq_notAPath_iff, fault?_smallPaths p hp] at hfail
    cases hfail
  have hrun : (Pool.ofTasks 3).run (workerCount (-1) 3) crossedMoves
      = some ⟨[], [], [], [2, 0, 1]⟩ := by decide
  obtain ⟨reports, hreports, _, hruns⟩ :=
    chunkPaths_any_schedule noGrammars smallFolder.fileSystem (.fixed loneLeaf) .standard
      smallPaths hread
  obtain ⟨_, _, _, hcollected⟩ := (hruns (-1)).1 crossedMoves _ hrun
  exact ⟨hread, hrun, reports, hreports, hcollected rfl⟩

/-! ## One path among others -/

section

variable {grammars : Grammars} {files : FileSystem} {registry : Registry} {config : Config}
  {paths : List Text} {reports : List FileReport}

/-- Without a text that is no path, the reports are given in any order. -/
theorem chunkPathsIn_eq_chunkPaths {order : List Nat}
    (horder : order.Perm (List.range paths.length)) :
    chunkPathsIn order (reportFile grammars files registry config) paths = .ok reports ↔
      chunkPaths grammars files registry config paths = .ok reports :=
  (chunkPathsIn_eq_ok_iff (fun _ _ => reportFile_path) horder).trans chunkPaths_eq_ok_iff.symm

/-- The first text that is no path stops the reports on some paths. -/
theorem mapM_reportFile_eq_error {fault : PathFault} : ∀ {paths : List Text},
    paths.findSome? Path.fault? = some fault →
      paths.mapM (reportFile grammars files registry config) = .error (.read (.notAPath fault))
  | [], h => by cases h
  | p :: paths, h => by
      rw [List.findSome?_cons] at h
      rw [List.mapM_cons]
      rcases reportFile_cases grammars files registry config p with
        ⟨own, hown, hfail⟩ | ⟨hnone, r, hr, _⟩
      · rw [hown] at h
        cases h
        rw [hfail]
        rfl
      · rw [hnone] at h
        rw [hr, mapM_reportFile_eq_error h]
        rfl

/-- In any order the reports fail by the first text that is no path, and only by such. -/
theorem chunkPathsIn_eq_error_iff {order : List Nat} (horder : order.Perm (List.range paths.length))
    {e : Failure} :
    chunkPathsIn order (reportFile grammars files registry config) paths = .error e ↔
      ∃ fault, (order.filterMap fun i => paths[i]?).findSome? Path.fault? = some fault ∧
        e = .read (.notAPath fault) := by
  cases hfirst : (order.filterMap fun i => paths[i]?).findSome? Path.fault? with
  | some fault =>
      rw [chunkPathsIn, mapM_reportFile_eq_error hfirst]
      constructor
      · rintro ⟨⟩
        exact ⟨fault, rfl, rfl⟩
      · rintro ⟨_, ⟨⟩, rfl⟩
        rfl
  | none =>
      have hpaths : ∀ p ∈ paths, Path.fault? p = none := fun p hp =>
        List.findSome?_eq_none_iff.mp hfirst p ((mem_filterMap_positions horder).mpr hp)
      obtain ⟨reports, hreports, _⟩ := exists_reports grammars files registry config hpaths
      rw [(chunkPathsIn_eq_ok_iff (fun _ _ => reportFile_path) horder).mpr hreports]
      exact ⟨nofun, nofun⟩

/-- The reports fail exactly if some text is no path. -/
theorem chunkPaths_fails_iff :
    (∃ e, chunkPaths grammars files registry config paths = .error e) ↔
      ∃ p ∈ paths, Path.fault? p ≠ none := by
  have hsame : ((List.range paths.length).filterMap fun i => paths[i]?).findSome? Path.fault? = none
      ↔ ∀ p ∈ paths, Path.fault? p = none := by
    simp only [List.findSome?_eq_none_iff, mem_filterMap_positions (.refl _)]
  constructor
  · rintro ⟨e, h⟩
    obtain ⟨fault, hfirst, _⟩ := (chunkPathsIn_eq_error_iff (.refl _)).mp h
    by_contra hnone
    have hpaths : ∀ p ∈ paths, Path.fault? p = none := by simpa using hnone
    rw [hsame.mpr hpaths] at hfirst
    cases hfirst
  · rintro ⟨p, hp, hfault⟩
    obtain ⟨fault, hfirst⟩ := Option.ne_none_iff_exists'.mp fun h => hfault (hsame.mp h p hp)
    exact ⟨_, (chunkPathsIn_eq_error_iff (.refl _)).mpr ⟨fault, hfirst, rfl⟩⟩

theorem chunkPaths_filter (h : chunkPaths grammars files registry config paths = .ok reports)
    (keep : Text → Bool) :
    chunkPaths grammars files registry config (paths.filter keep)
      = .ok (reports.filter fun r => keep r.path) := by
  refine chunkPaths_eq_ok_iff.mpr (List.rel_filter ?_ (chunkPaths_eq_ok_iff.mp h))
  intro p r hr
  show keep p = true ↔ keep r.path = true
  rw [reportFile_path hr]

theorem chunkPaths_eraseIdx (h : chunkPaths grammars files registry config paths = .ok reports)
    (i : Nat) :
    chunkPaths grammars files registry config (paths.eraseIdx i) = .ok (reports.eraseIdx i) := by
  have hreports := chunkPaths_eq_ok_iff.mp h
  rw [chunkPaths_eq_ok_iff, List.eraseIdx_eq_take_drop_succ, List.eraseIdx_eq_take_drop_succ]
  exact List.rel_append (List.forall₂_take i hreports) (List.forall₂_drop (i + 1) hreports)

end

/-- Reports on some paths fail, with no report on any, exactly if one of the texts is no path,
because the system has no bytes for it or because it holds a null character.  The order in which
the tasks are done shows in the fault alone, which is that of the first such text.  If all are
paths, there is a report on each, with the chunks of the file or the error with which the system
refused it, and the reports on the others are those given without it: without a path in all its
places, and without one place. -/
theorem chunkPaths_isolates (grammars : Grammars) (files : FileSystem) (registry : Registry)
    (config : Config) (paths : List Text) :
    (∀ order, order.Perm (List.range paths.length) →
      (∀ reports, chunkPathsIn order (reportFile grammars files registry config) paths = .ok reports
        ↔ chunkPaths grammars files registry config paths = .ok reports) ∧
      ∀ e, chunkPathsIn order (reportFile grammars files registry config) paths = .error e ↔
        ∃ fault, (order.filterMap fun i => paths[i]?).findSome? Path.fault? = some fault ∧
          e = .read (.notAPath fault)) ∧
    ((∃ e, chunkPaths grammars files registry config paths = .error e) ↔
      ∃ p ∈ paths, p.systemBytes? = none ∨ .char '\x00' ∈ p) ∧
    ((∀ p ∈ paths, p.systemBytes? ≠ none ∧ .char '\x00' ∉ p) →
      ∃ reports, chunkPaths grammars files registry config paths = .ok reports ∧
        List.Forall₂ (FileReport.Tells grammars files registry config) paths reports ∧
        (∀ p, chunkPaths grammars files registry config (paths.filter fun q => q != p)
          = .ok (reports.filter fun r => r.path != p)) ∧
        ∀ i, chunkPaths grammars files registry config (paths.eraseIdx i)
          = .ok (reports.eraseIdx i)) := by
  refine ⟨fun order horder => ⟨fun _ => chunkPathsIn_eq_chunkPaths horder,
    fun _ => chunkPathsIn_eq_error_iff horder⟩, ?_, fun hpaths => ?_⟩
  · simp only [chunkPaths_fails_iff, ne_eq, fault?_eq_none_iff, not_and_or, not_not]
  · obtain ⟨reports, hreports, htells⟩ := exists_reports grammars files registry config fun p hp =>
      fault?_eq_none_iff.mpr (hpaths p hp)
    have hrun := chunkPaths_eq_ok_iff.mpr hreports
    exact ⟨reports, hrun, htells, fun p => chunkPaths_filter hrun _,
      chunkPaths_eraseIdx hrun⟩

theorem chunkPaths_isolates_folder :
    (∀ p ∈ smallPaths, p.systemBytes? ≠ none ∧ .char '\x00' ∉ p) ∧
    ∃ reports,
      chunkPaths noGrammars smallFolder.fileSystem (.fixed loneLeaf) .standard smallPaths
        = .ok reports ∧
      chunkPaths noGrammars smallFolder.fileSystem (.fixed loneLeaf) .standard
        (smallPaths.eraseIdx 1) = .ok (reports.eraseIdx 1) := by
  have hpaths : ∀ p ∈ smallPaths, p.systemBytes? ≠ none ∧ .char '\x00' ∉ p :=
    fun p hp => fault?_eq_none_iff.mp (fault?_smallPaths p hp)
  obtain ⟨reports, hreports, _, _, herase⟩ :=
    (chunkPaths_isolates noGrammars smallFolder.fileSystem (.fixed loneLeaf) .standard
      smallPaths).2.2 hpaths
  exact ⟨hpaths, reports, hreports, herase 1⟩

/-! ## Callers without a registry -/

section

variable {grammars : Grammars} {files : FileSystem} {registry : Registry} {config : Config}
  {given : Option Registry} {inUse : Except TableError Registry}

/-- Reports are those with the registry that is found, and an empty list of paths needs none. -/
theorem chunkPathsGiven_eq (h : registryFor given inUse = .ok registry) (paths : List Text) :
    chunkPathsGiven grammars files given inUse config paths
      = chunkPaths grammars files registry config paths := by
  unfold chunkPathsGiven
  split
  · next hempty =>
      rw [List.isEmpty_iff.mp hempty]
      rfl
  · rw [h]
    rfl

/-- Chunks are those with the registry that is found, and a document without bytes needs none. -/
theorem chunkGiven_eq (h : registryFor given inUse = .ok registry) (d : Document) :
    ∃ chunks, chunkDocument grammars registry config d = .ok chunks ∧
      chunkGiven grammars given inUse config d
        = .ok (route grammars registry config d, chunks) := by
  obtain ⟨chunks, hchunks, _⟩ := chunkDocument_cases grammars registry config d
  refine ⟨chunks, hchunks, ?_⟩
  rw [chunkDocument] at hchunks
  unfold chunkGiven
  split
  · next hempty =>
      rw [route, if_pos hempty] at hchunks ⊢
      cases hchunks
      rfl
  · rw [h]
    simp only [bind, Except.bind, hchunks, Except.mapError, pure, Except.pure]

end

end SyntaxChunks
