import SmallScheme.Batch.Run
import SmallScheme.Proofs.FileTree
import SmallScheme.Proofs.Running

/-! Which logs a batch run leaves behind.

A log is named after the file alone, whatever directory the file is in. Logs never take the place of
programs, whose names end differently, so every program is run as it was at the start; but the log of a
file is lost when a later file of the run has the same name. -/
namespace SmallScheme.Batch

theorem hasEnding_iff {name : String} : hasEnding name = true ↔ ending.toList <:+ name.toList :=
  List.isSuffixOf_iff_suffix

theorem hasEnding_join {name : String} (h : hasEnding name = true) (dir : String) :
    hasEnding (Path.join dir name) = true :=
  hasEnding_iff.mpr ((hasEnding_iff.mp h).trans (Path.suffix_join dir name))

/-- The path of a program ends with the name of a program. -/
theorem exists_endsWith {path : String} (h : hasEnding path = true) :
    ∃ name, Path.EndsWith path name ∧ hasEnding name = true := by
  obtain ⟨name, hname, hsuffix⟩ :=
    Path.EndsWith.exists_of_suffix (by decide) (by decide) (hasEnding_iff.mp h)
  exact ⟨name, hname, hasEnding_iff.mpr hsuffix⟩

theorem slash_not_mem_fileName {path : String} (h : hasEnding path = true) :
    '/' ∉ (Path.fileName path).toList := by
  obtain ⟨name, hname, -⟩ := exists_endsWith h
  rw [hname.fileName]
  exact hname.slash_not_mem

theorem fileName_join {name : String} (h : hasEnding name = true) (dir : String) :
    Path.fileName (Path.join dir name) = Path.fileName name := by
  obtain ⟨last, hlast, -⟩ := exists_endsWith h
  rw [(hlast.join dir).fileName, hlast.fileName]

/-- The name of a program is not that of a log. -/
theorem ne_log_of_hasEnding {name : String} (h : hasEnding name = true) (other : String) :
    name ≠ other ++ ".log" := by
  rintro rfl
  obtain ⟨front, hfront⟩ := hasEnding_iff.mp h
  have hlast := congrArg List.getLast? hfront
  rw [String.toList_append, List.getLast?_append_of_ne_nil _ (by decide),
    List.getLast?_append_of_ne_nil _ (by decide)] at hlast
  exact absurd hlast (by decide)

/-- The logs of reports with these names are elsewhere. -/
def Spares (names place : List String) : Prop := ∀ name ∈ names, place.getLast? ≠ some (name ++ ".log")

theorem Spares.of_subset {names more place : List String} (h : Spares more place)
    (hsub : names ⊆ more) : Spares names place := fun name hname => h name (hsub hname)

theorem endsWith_logPath (dir : String) {r : Report} (hname : '/' ∉ r.name.toList) :
    Path.EndsWith (logPath dir r) (r.name ++ ".log") := by
  apply Path.EndsWith.join
  apply Path.EndsWith.of_name
  · rw [String.toList_append]
    exact fun hmem => (List.mem_append.mp hmem).elim hname (by decide)
  · rw [String.toList_append, List.length_append]
    exact Nat.lt_add_left _ (by decide)

/-- Where a log is written, all files of other names are kept, and the log can be read. -/
theorem writeLog_ok {t u : FileTree} {dir : String} {r : Report} (hname : '/' ∉ r.name.toList)
    (h : writeLog t dir r = (.ok (), u)) :
    t.Preserves (Spares [r.name]) u ∧ u.readText (logPath dir r) = .ok r.log := by
  have hmake := t.preserves_makeDirectory dir
  rw [writeLog] at h
  rcases hmade : t.makeDirectory dir with ⟨fault | _, v⟩
  · rw [hmade] at h
    cases h
  rw [hmade] at h hmake
  dsimp only at h
  rcases hwrite : v.writeFile (logPath dir r) r.log.toUTF8 with fault | w
  · rw [hwrite] at h
    cases h
  rw [hwrite] at h
  cases h
  have hmade' : t.Preserves (Spares [r.name]) v := hmake.mono fun _ _ => trivial
  have hwritten : v.Preserves (Spares [r.name]) u := by
    apply (FileTree.preserves_writeFile (endsWith_logPath dir hname) hwrite).mono
    exact fun place hplace => hplace r.name List.mem_cons_self
  exact ⟨hmade'.trans hwritten, FileTree.readText_of_find (FileTree.find_writeFile hwrite)⟩

section
variable {setup : Setup} {o : Options} {p q : Progress}

theorem name_of_runFile {t : FileTree} {path : String} {r : Report}
    (h : runFile setup t path = .ok r) : r.name = Path.fileName path := by
  rw [runFile] at h
  rcases hread : t.readText path with fault | text
  · rw [hread] at h
    cases h
  · rw [hread] at h
    cases h
    rfl

theorem slash_not_mem_name {t : FileTree} {path : String} {r : Report} (hpath : hasEnding path = true)
    (h : runFile setup t path = .ok r) : '/' ∉ r.name.toList := by
  rw [name_of_runFile h]
  exact slash_not_mem_fileName hpath

/-- One file of a run that writes logs: it can be read, and only logs of its name are lost. -/
theorem runOne_ok (ho : o.writesLogs = true) {path : String} (hpath : hasEnding path = true)
    (h : runOne setup o p path = (q, none)) :
    p.tree.Preserves (Spares [Path.fileName path]) q.tree ∧
      ∃ r, runFile setup p.tree path = .ok r ∧
        q.tree.readText (logPath o.resultsDir r) = .ok r.log := by
  rw [runOne] at h
  rcases hrun : runFile setup p.tree path with fault | r
  · rw [hrun] at h
    cases h
  rw [hrun, ho] at h
  dsimp only at h
  rw [if_pos rfl] at h
  rcases hwrite : writeLog p.tree o.resultsDir r with ⟨fault | _, u⟩
  · rw [hwrite] at h
    cases h
  rw [hwrite] at h
  cases h
  obtain ⟨hkept, hread⟩ := writeLog_ok (slash_not_mem_name hpath hrun) hwrite
  rw [name_of_runFile hrun] at hkept
  exact ⟨hkept, r, rfl, hread⟩

theorem runAll_cons_ok {path : String} {paths : List String}
    (h : runAll setup o p (path :: paths) = (q, none)) :
    ∃ mid, runOne setup o p path = (mid, none) ∧ runAll setup o mid paths = (q, none) := by
  rw [runAll] at h
  rcases hone : runOne setup o p path with ⟨mid, _ | fault⟩
  · rw [hone] at h
    exact ⟨mid, rfl, h⟩
  · rw [hone] at h
    cases h

theorem runAll_append_ok {before after : List String}
    (h : runAll setup o p (before ++ after) = (q, none)) :
    ∃ mid, runAll setup o p before = (mid, none) ∧ runAll setup o mid after = (q, none) := by
  induction before generalizing p with
  | nil => exact ⟨p, rfl, h⟩
  | cons path before ih =>
    obtain ⟨next, hone, hall⟩ := runAll_cons_ok h
    obtain ⟨mid, hbefore, hafter⟩ := ih hall
    refine ⟨mid, ?_, hafter⟩
    rw [runAll, hone]
    exact hbefore

/-- Files in a row: only logs of their names are lost. -/
theorem runAll_ok (ho : o.writesLogs = true) {paths : List String}
    (hpaths : ∀ path ∈ paths, hasEnding path = true) (h : runAll setup o p paths = (q, none)) :
    p.tree.Preserves (Spares (paths.map Path.fileName)) q.tree := by
  induction paths generalizing p with
  | nil =>
    cases h
    exact .refl _ _
  | cons path paths ih =>
    obtain ⟨hpath, hrest⟩ := List.forall_mem_cons.mp hpaths
    obtain ⟨mid, hone, hall⟩ := runAll_cons_ok h
    obtain ⟨hfirst, -⟩ := runOne_ok ho hpath hone
    rw [List.map_cons]
    have hfirst' := hfirst.mono fun _ (h : Spares (Path.fileName path :: _) _) =>
      h.of_subset (List.cons_subset_cons _ (List.nil_subset (paths.map Path.fileName)))
    exact hfirst'.trans ((ih hrest hall).mono fun _ h => h.of_subset (List.subset_cons_self _ _))

/-- A program is run as before, as long as only logs were written. -/
theorem runFile_of_preserves {t u : FileTree} {path : String} {names : List String}
    (hpath : hasEnding path = true) (hfile : t.isFile path = true)
    (h : t.Preserves (Spares names) u) : runFile setup u path = runFile setup t path := by
  have hsame : u.readText path = t.readText path := by
    obtain ⟨name, hname, hending⟩ := exists_endsWith hpath
    apply h.readText hfile
    intro place hplace other _
    rw [FileTree.getLast_locate hname hplace]
    exact fun heq => ne_log_of_hasEnding hending other (Option.some.inj heq)
  rw [runFile, hsame, runFile]

/-- A log stays, as long as only logs of other names are written. -/
theorem readText_logPath_of_preserves {t u : FileTree} {dir : String} {r : Report}
    {names : List String} (hname : '/' ∉ r.name.toList) (hother : r.name ∉ names)
    (h : t.Preserves (Spares names) u) (hread : t.readText (logPath dir r) = .ok r.log) :
    u.readText (logPath dir r) = .ok r.log := by
  rw [h.readText (FileTree.isFile_of_readText hread), hread]
  intro place hplace name hmem heq
  rw [FileTree.getLast_locate (endsWith_logPath dir hname) hplace] at heq
  have hsame : r.name = name := (String.append_left_inj _).mp (Option.some.inj heq)
  rw [hsame] at hother
  exact hother hmem

/-- A run of programs leaves the log of each one that is the last of its name. -/
theorem runAll_log (ho : o.writesLogs = true) {before after : List String} {path : String}
    (hpaths : ∀ other ∈ before ++ path :: after, hasEnding other = true)
    (hfile : p.tree.isFile path = true)
    (hlater : ∀ later ∈ after, Path.fileName later ≠ Path.fileName path)
    (h : runAll setup o p (before ++ path :: after) = (q, none)) :
    ∃ r, runFile setup p.tree path = .ok r ∧
      q.tree.readText (logPath o.resultsDir r) = .ok r.log := by
  obtain ⟨hpaths1, hpaths2⟩ := List.forall_mem_append.mp hpaths
  obtain ⟨hpath, hpaths2⟩ := List.forall_mem_cons.mp hpaths2
  obtain ⟨p1, hbefore, hrest⟩ := runAll_append_ok h
  obtain ⟨p2, hone, hafter⟩ := runAll_cons_ok hrest
  obtain ⟨-, r, hr, hread⟩ := runOne_ok ho hpath hone
  -- the files before it have only written logs
  rw [runFile_of_preserves hpath hfile (runAll_ok ho hpaths1 hbefore)] at hr
  -- the files after it have only written logs of other names
  have hother : r.name ∉ after.map Path.fileName := by
    rw [name_of_runFile hr]
    intro hmem
    obtain ⟨later, hmem, heq⟩ := List.mem_map.mp hmem
    exact hlater later hmem heq
  exact ⟨r, hr, readText_logPath_of_preserves (slash_not_mem_name hpath hr) hother
    (runAll_ok ho hpaths2 hafter) hread⟩

end

/-- Files that are named on the command line are found in the directory, and are programs. -/
theorem locateAll_ok {t : FileTree} {dir : String} {names paths : List String}
    (h : locateAll t dir names = .ok paths) : paths = names.map (Path.join dir) ∧
      ∀ name ∈ names, hasEnding name = true ∧ t.isFile (Path.join dir name) = true := by
  induction names generalizing paths with
  | nil =>
    cases h
    exact ⟨rfl, nofun⟩
  | cons name names ih =>
    rw [locateAll] at h
    rcases hone : locate t dir name with refusal | path
    · rw [hone] at h
      cases h
    rcases hall : locateAll t dir names with refusal | rest
    · rw [hone, hall] at h
      cases h
    rw [hone, hall] at h
    cases h
    obtain ⟨rfl, hrest⟩ := ih hall
    rw [locate] at hone
    split at hone
    · cases hone
    · next hending =>
      split at hone
      · next hfile =>
        cases hone
        exact ⟨rfl, List.forall_mem_cons.mpr ⟨⟨by simpa using hending, hfile⟩, hrest⟩⟩
      · cases hone

theorem select_ok {t : FileTree} {o : Options} {paths : List String} (hfiles : o.files ≠ [])
    (h : select t o = .ok paths) : locateAll t o.dir o.files = .ok paths := by
  have hsome : (!o.files.isEmpty) = true := by simpa using hfiles
  rw [select, hsome, if_pos rfl] at h
  rcases hall : locateAll t o.dir o.files with refusal | found
  · rw [hall] at h
    cases h
  · rw [hall] at h
    simp only [bind, Except.bind] at h
    split at h
    · cases h
    · cases h
      rfl

/-- A run that nothing ends early has found its files and run all of them. -/
theorem run_of_not_stopped {setup : Setup} {t : FileTree} {o : Options}
    (h : (run setup t o).stop? = none) :
    ∃ paths p, select t o = .ok paths ∧ runAll setup o { tree := t } paths = (p, none) ∧
      (run setup t o).tree = p.tree := by
  rcases hselect : select t o with refusal | paths
  · rw [run, hselect] at h
    cases h
  rcases hall : runAll setup o { tree := t } paths with ⟨p, _ | fault⟩
  · refine ⟨paths, p, rfl, hall, ?_⟩
    rw [run, hselect]
    dsimp only
    rw [hall]
  · rw [run, hselect] at h
    dsimp only at h
    rw [hall] at h
    cases h

/-- Two programs of one name in different directories, and another program. -/
def namesakes : FileTree where
  entries := [(["demos"], .directory), (["demos", "a"], .directory), (["demos", "b"], .directory),
    (["demos", "a", "x.scheme"], .file "#t".toUTF8), (["demos", "b", "x.scheme"], .file "#f".toUTF8),
    (["demos", "y.scheme"], .file "#t".toUTF8)]

/-- Asks for all of them. -/
def namesakeOptions : Options := { files := ["a/x.scheme", "b/x.scheme", "y.scheme"] }

/-- The report on a program that is a single boolean. -/
def boolReport (name : String) (b : Bool) : Report :=
  ⟨name, [⟨Datum.boolText b, .success (some (.bool b)) []⟩]⟩

set_option maxRecDepth 20000 in
theorem ofText_boolText (name : String) (b : Bool) :
    Report.ofText { depth := 5 } name (Datum.boolText b) = boolReport name b := by
  have hforms : Text.topLevelForms (Datum.boolText b) = [Datum.boolText b] := by
    revert b
    decide
  have hprogram : Program.ofText (Datum.boolText b) = .single (.bool b) := by
    have htokens : tokenize (Datum.boolText b) = [.word (Datum.boolText b)] := by
      revert b
      decide
    have hread : Datum.read [.word (Datum.boolText b)] = (.ok (.bool b), []) := by
      cases b <;> rfl
    rw [Program.ofText, htokens, Program.ofTokens_ok hread, Program.ofTokens_nil]
    rfl
  rw [Report.ofText, hforms, Report.evalForms_cons, Session.evaluate, hprogram]
  rfl

theorem runFile_bool {t : FileTree} {path : String} {b : Bool}
    (h : t.find path = .ok (.file (Datum.boolText b).toUTF8)) :
    runFile { depth := 5 } t path = .ok (boolReport (Path.fileName path) b) := by
  rw [runFile, FileTree.readText_of_find h, ← ofText_boolText]
  rfl

/-- The tree with one more log. -/
def withLog (t : FileTree) (r : Report) : FileTree :=
  t.put ["test-results", r.name ++ ".log"] (.file r.log.toUTF8)

theorem content?_withLog (t : FileTree) (r : Report) (place : List String) :
    (withLog t r).content? place =
      if place = ["test-results", r.name ++ ".log"] then some r.log.toUTF8 else t.content? place := by
  unfold withLog
  split
  · next hplace =>
    rw [hplace, FileTree.content?, FileTree.node?_put_self t (List.cons_ne_nil _ _)]
  · next hplace => rw [FileTree.content?, FileTree.node?_put_of_ne t hplace, FileTree.content?]

/-- The tree after the first program. -/
def namesakesFirst : FileTree :=
  withLog (namesakes.put ["test-results"] .directory) (boolReport "x.scheme" true)

/-- The tree after the second program, whose log is written over that of the first. -/
def namesakesSecond : FileTree := withLog namesakesFirst (boolReport "x.scheme" false)

/-- The tree after all programs. -/
def namesakesLast : FileTree := withLog namesakesSecond (boolReport "y.scheme" true)

theorem run_namesakes :
    (run { depth := 5 } namesakes namesakeOptions).stop? = none ∧
      (run { depth := 5 } namesakes namesakeOptions).tree = namesakesLast := by
  have hselect : select namesakes namesakeOptions =
      .ok ["demos/a/x.scheme", "demos/b/x.scheme", "demos/y.scheme"] := by rfl
  have hfirst (reports : List Report) : runOne { depth := 5 } namesakeOptions
      ⟨namesakes, reports⟩ "demos/a/x.scheme" =
        (⟨namesakesFirst, reports ++ [boolReport "x.scheme" true]⟩, none) := by
    rw [runOne, @runFile_bool namesakes "demos/a/x.scheme" true rfl]
    rfl
  have hsecond (reports : List Report) : runOne { depth := 5 } namesakeOptions
      ⟨namesakesFirst, reports⟩ "demos/b/x.scheme" =
        (⟨namesakesSecond, reports ++ [boolReport "x.scheme" false]⟩, none) := by
    rw [runOne, @runFile_bool namesakesFirst "demos/b/x.scheme" false rfl]
    rfl
  have hthird (reports : List Report) : runOne { depth := 5 } namesakeOptions
      ⟨namesakesSecond, reports⟩ "demos/y.scheme" =
        (⟨namesakesLast, reports ++ [boolReport "y.scheme" true]⟩, none) := by
    rw [runOne, @runFile_bool namesakesSecond "demos/y.scheme" true rfl]
    rfl
  have hall : runAll { depth := 5 } namesakeOptions { tree := namesakes }
      ["demos/a/x.scheme", "demos/b/x.scheme", "demos/y.scheme"] =
        (⟨namesakesLast, [boolReport "x.scheme" true, boolReport "x.scheme" false,
          boolReport "y.scheme" true]⟩, none) := by
    simp only [runAll, hfirst, hsecond, hthird]
    rfl
  rw [run, hselect]
  dsimp only
  rw [hall]
  exact ⟨rfl, rfl⟩

/-- The log of a file survives if no later file has the same name. In a run that writes logs and that
nothing ends early, whatever becomes of the forms, take a file that was asked for and is the last of its
name. It was run as it was at the start, and after the run its log can be read in the directory of the
results. -/
theorem logs_survive {setup : Setup} {t : FileTree} {o : Options} (hlogs : o.writesLogs = true)
    (hrun : (run setup t o).stop? = none) {before after : List String} {file : String}
    (hfiles : o.files = before ++ file :: after)
    (hlater : ∀ later ∈ after, Path.fileName later ≠ Path.fileName file) :
    ∃ r, runFile setup t (Path.join o.dir file) = .ok r ∧
      (run setup t o).tree.readText (logPath o.resultsDir r) = .ok r.log := by
  obtain ⟨paths, q, hselect, hall, htree⟩ := run_of_not_stopped hrun
  have hne : o.files ≠ [] := by
    rw [hfiles]
    exact List.append_ne_nil_of_right_ne_nil _ (List.cons_ne_nil _ _)
  obtain ⟨rfl, hfound⟩ := locateAll_ok (select_ok hne hselect)
  obtain ⟨hending, hfile⟩ := hfound file (by simp [hfiles])
  have hpaths : ∀ path ∈ o.files.map (Path.join o.dir), hasEnding path = true :=
    List.forall_mem_map.mpr fun name hname => hasEnding_join (hfound name hname).1 o.dir
  have hothers : ∀ later ∈ after.map (Path.join o.dir),
      Path.fileName later ≠ Path.fileName (Path.join o.dir file) := by
    rw [List.forall_mem_map, fileName_join hending]
    intro later hmem
    rw [fileName_join (hfound later (by simp [hfiles, hmem])).1]
    exact hlater later hmem
  rw [hfiles, List.map_append, List.map_cons] at hall hpaths
  rw [htree]
  exact runAll_log (p := { tree := t }) hlogs hpaths hfile hothers hall

/-- The second program is the last of its name, and its log survives. -/
theorem logs_survive_namesakes :
    ∃ r, runFile { depth := 5 } namesakes (Path.join "demos" "b/x.scheme") = .ok r ∧
      (run { depth := 5 } namesakes namesakeOptions).tree.readText (logPath "test-results" r) =
        .ok r.log := by
  have hfiles : namesakeOptions.files = ["a/x.scheme"] ++ "b/x.scheme" :: ["y.scheme"] := rfl
  have hother : ∀ later ∈ ["y.scheme"], Path.fileName later ≠ Path.fileName "b/x.scheme" := by decide
  exact logs_survive rfl run_namesakes.1 hfiles hother

/-- The log of the first program is lost: nothing ends the run early, and then no file at all holds the
log. The names are those of different files, and the directory of the results was not there before. -/
theorem log_lost :
    namesakeOptions.files.Nodup ∧ namesakes.isDirectory "test-results" = false ∧
      (run { depth := 5 } namesakes namesakeOptions).stop? = none ∧
      ∃ r, runFile { depth := 5 } namesakes (Path.join "demos" "a/x.scheme") = .ok r ∧
        ∀ place, (run { depth := 5 } namesakes namesakeOptions).tree.content? place ≠
          some r.log.toUTF8 := by
  refine ⟨by decide, rfl, run_namesakes.1, boolReport "x.scheme" true, runFile_bool rfl, ?_⟩
  have hdiffers {text : String} (h : text ≠ (boolReport "x.scheme" true).log) :
      some text.toUTF8 ≠ some (boolReport "x.scheme" true).log.toUTF8 :=
    fun heq => h (String.toByteArray_inj.mp (Option.some.inj heq))
  have hsecond : (boolReport "x.scheme" false).log ≠ (boolReport "x.scheme" true).log := by
    decide +kernel
  have hthird : (boolReport "y.scheme" true).log ≠ (boolReport "x.scheme" true).log := by
    decide +kernel
  have hprogram : ∀ b, Datum.boolText b ≠ (boolReport "x.scheme" true).log := by decide +kernel
  intro place hplace
  rw [run_namesakes.2, namesakesLast, content?_withLog] at hplace
  split at hplace
  · exact hdiffers hthird hplace
  rw [namesakesSecond, content?_withLog] at hplace
  split at hplace
  · exact hdiffers hsecond hplace
  · next hne =>
    -- what is left are the programs
    have hne' : place ≠ ["test-results", (boolReport "x.scheme" true).name ++ ".log"] := hne
    rw [namesakesFirst, content?_withLog, if_neg hne'] at hplace
    have hmem := FileTree.mem_of_content? hplace
    simp only [FileTree.put, namesakes, List.mem_cons, List.not_mem_nil, or_false, Prod.mk.injEq,
      reduceCtorEq, and_false, false_or, FileNode.file.injEq] at hmem
    rcases hmem with ⟨-, h⟩ | ⟨-, h⟩ | ⟨-, h⟩
    · exact hdiffers (hprogram true) (congrArg some h.symm)
    · exact hdiffers (hprogram false) (congrArg some h.symm)
    · exact hdiffers (hprogram true) (congrArg some h.symm)

end SmallScheme.Batch
