import SmallScheme.Proofs.LogWriting
import SmallScheme.Proofs.Selection

/-! What the exit code of a batch run says.

A run goes through the selected files in order, and stops only at a file that is no text or a log that
cannot be written; forms that fail are counted and never stop it. As logs are not programs, every file
is run as it was at the start. Main statement: `exitStatus_faithful`, the exit code, the totals and the
logs of a run in terms of the files that were there before it.

Names are taken as paths from the directory and may lead out of it; only relative names that go nowhere
up are sure to stay below it. -/
namespace SmallScheme

namespace FileTree
variable {t : FileTree} {path : String}

/-- The path leads to a file that holds text in UTF-8. -/
def IsText (t : FileTree) (path : String) : Prop :=
  ∃ content, t.find path = .ok (.file content) ∧ content.IsValidUTF8

/-- The text at the path. Where there is none it is empty. -/
def textAt (t : FileTree) (path : String) : String :=
  match t.readText path with
  | .ok text => text
  | .error _ => ""

theorem readText_eq_ok {text : String} : t.readText path = .ok text ↔
    ∃ content, t.find path = .ok (.file content) ∧ String.fromUTF8? content = some text := by
  rw [readText]
  constructor
  · intro h
    rcases hfind : t.find path with fault | content | _
    · rw [hfind] at h
      cases h
    · rw [hfind] at h
      simp only [bind, Except.bind] at h
      split at h
      · next hvalid =>
        cases h
        exact ⟨content, rfl, hvalid⟩
      · cases h
    · rw [hfind] at h
      cases h
  · rintro ⟨content, hfind, hvalid⟩
    rw [hfind]
    simp only [bind, Except.bind, hvalid]
    rfl

/-- What is text in UTF-8 can be read, and nothing else. -/
theorem isText_iff : t.IsText path ↔ ∃ text, t.readText path = .ok text := by
  simp only [readText_eq_ok]
  constructor
  · rintro ⟨content, hfind, hvalid⟩
    exact ⟨String.fromUTF8 content hvalid, content, hfind, dif_pos hvalid⟩
  · rintro ⟨text, content, hfind, htext⟩
    refine ⟨content, hfind, ?_⟩
    rw [String.fromUTF8?] at htext
    split at htext
    · next hvalid => exact hvalid
    · cases htext

theorem IsText.readText (h : t.IsText path) : t.readText path = .ok (t.textAt path) := by
  obtain ⟨text, htext⟩ := isText_iff.mp h
  rw [textAt, htext]

theorem textAt_of_find {text : String} (h : t.find path = .ok (.file text.toUTF8)) :
    t.textAt path = text := by
  rw [textAt, readText_of_find h]

theorem isText_of_find {text : String} (h : t.find path = .ok (.file text.toUTF8)) :
    t.IsText path := isText_iff.mpr ⟨text, readText_of_find h⟩

end FileTree

namespace Report

theorem passed_iff {r : Report} :
    r.passed = true ↔ ∀ form ∈ r.forms, ∀ e, form.result ≠ .failure e := by
  have hresult (result : FormResult) :
      ¬ result.isFailure = true ↔ ∀ e, result ≠ .failure e := by
    cases result with
    | success => exact ⟨fun _ _ => nofun, fun _ => nofun⟩
    | failure e => exact ⟨fun h => absurd rfl h, fun h => absurd rfl (h e)⟩
  rw [passed, decide_eq_true_iff, failed, List.countP_eq_zero]
  simp only [hresult]

/-- The files that do not pass are those with a form that fails. -/
theorem not_passed_eq_any (r : Report) : (!r.passed) = r.forms.any (·.result.isFailure) := by
  rw [passed, failed, Bool.eq_iff_iff, Bool.not_eq_true', decide_eq_false_iff_not, ← ne_eq,
    ← Nat.pos_iff_ne_zero, List.countP_pos_iff, List.any_eq_true]

end Report

namespace Batch

/-- The report on a file as the tree has it. -/
def reportOn (setup : Setup) (t : FileTree) (path : String) : Report :=
  .ofText setup (Path.fileName path) (t.textAt path)

/-- Nothing stops a run over these files: all of them are texts and, if logs are asked for, every log is
written. -/
structure Completes (setup : Setup) (t : FileTree) (o : Options) (paths : List String) : Prop where
  texts : ∀ path ∈ paths, t.IsText path
  logs : o.writesLogs = true →
    (writeLogs t o.resultsDir (paths.map (reportOn setup t))).1 = .ok ()

/-- What is printed first. -/
def opening (total : Nat) : String := s!"\nRunning {total} file(s)...\n"

/-- What is printed of the files. -/
def printed (setup : Setup) (t : FileTree) (paths : List String) : String :=
  String.join (paths.map fun path => summary (reportOn setup t path))

/-- What is printed last, with the counts of all files, of those that passed and of those that
failed. -/
def closing (o : Options) (total passed failed : Nat) : String :=
  let rule := Report.rule
  let logs := if o.writesLogs then s!"\nDetailed logs: {o.resultsDir}\n" else ""
  s!"\n{rule}\nSummary\n{rule}\nTotal files: {total}\n" ++
  s!"Passed: {passed}\nFailed: {failed}\n{logs}{rule}\n\n"

theorem totals_eq (o : Options) (reports : List Report) : totals o reports =
    closing o reports.length (reports.countP (·.passed)) (reports.countP (!·.passed)) := rfl

theorem prefix_append_cons {α : Type} (before : List α) (x : α) (after : List α) :
    before ++ [x] <+: before ++ x :: after :=
  (List.prefix_append_right_inj before).mpr ((List.prefix_cons_inj x).mpr List.nil_prefix)

section
variable {setup : Setup} {t : FileTree} {o : Options} {done paths : List String} {path : String}

theorem runFile_of_isText (h : t.IsText path) : runFile setup t path = .ok (reportOn setup t path) := by
  rw [runFile, h.readText]
  rfl

theorem runFile_of_not_isText (setup : Setup) (h : ¬ t.IsText path) :
    ∃ fault, runFile setup t path = .error fault := by
  rw [runFile]
  rcases hread : t.readText path with fault | text
  · exact ⟨fault, rfl⟩
  · exact absurd (FileTree.isText_iff.mpr ⟨text, hread⟩) h

/-- Names of programs have no slash. -/
theorem slash_not_mem_reportOn (setup : Setup) (t : FileTree) (h : ∀ path ∈ paths, hasEnding path = true) :
    ∀ r ∈ paths.map (reportOn setup t), '/' ∉ r.name.toList := by
  refine List.forall_mem_map.mpr fun path hpath => ?_
  exact slash_not_mem_fileName (h path hpath)

theorem Completes.nil (setup : Setup) (t : FileTree) (o : Options) : Completes setup t o [] :=
  ⟨nofun, fun _ => rfl⟩

/-- The first files of a run do not stop it if none does. -/
theorem Completes.of_append {rest : List String} (h : Completes setup t o (paths ++ rest)) :
    Completes setup t o paths where
  texts := (List.forall_mem_append.mp h.texts).1
  logs hlogs := by
    have hall := h.logs hlogs
    rw [List.map_append] at hall
    exact writeLogs_ok_of_append hall

/-- Whether files stop a run is decided by the tree and by their names. -/
theorem completes_of_canLog (hpaths : ∀ path ∈ paths, hasEnding path = true)
    (htexts : ∀ path ∈ paths, t.IsText path)
    (hlogs : o.writesLogs = true → CanLog t o.resultsDir (paths.map Path.fileName)) :
    Completes setup t o paths := by
  refine ⟨htexts, fun hwrites => ?_⟩
  by_cases hnil : paths = []
  · rw [hnil]
    rfl
  · have hne : paths.map (reportOn setup t) ≠ [] := mt List.map_eq_nil_iff.mp hnil
    rw [writeLogs_ok_iff hne (slash_not_mem_reportOn setup t hpaths), List.map_map]
    exact hlogs hwrites

/-- The tree after a run over these files: their logs are written in order, if logs are asked for. -/
def treeAfter (setup : Setup) (t : FileTree) (o : Options) (paths : List String) : FileTree :=
  if o.writesLogs then (writeLogs t o.resultsDir (paths.map (reportOn setup t))).2 else t

/-- The state of a run after these files. -/
def progress (setup : Setup) (t : FileTree) (o : Options) (paths : List String) : Progress where
  tree := treeAfter setup t o paths
  reports := paths.map (reportOn setup t)

/-- What a run leaves behind when it got to these files of all: their reports and logs, and the totals
unless a fault stopped it there. -/
def resultAfter (setup : Setup) (t : FileTree) (o : Options) (total : Nat) (ran : List String) :
    Option FileFault → Result
  | some fault =>
    { exitCode := 1, stdout := opening total ++ printed setup t ran,
      stop? := some (.faulted fault), tree := treeAfter setup t o ran }
  | none =>
    { exitCode := if (ran.map (reportOn setup t)).all (·.passed) then 0 else 1,
      stdout := opening total ++ printed setup t ran ++ totals o (ran.map (reportOn setup t)),
      tree := treeAfter setup t o ran }

theorem progress_nil : progress setup t o [] = { tree := t } := by
  rw [progress, treeAfter]
  split <;> rfl

theorem preserves_treeAfter (h : ∀ path ∈ paths, hasEnding path = true) :
    t.Preserves (Spares (paths.map Path.fileName)) (treeAfter setup t o paths) := by
  rw [treeAfter]
  split
  · have hkept := preserves_writeLogs t o.resultsDir (slash_not_mem_reportOn setup t h)
    rw [List.map_map] at hkept
    exact hkept
  · exact .refl _ t

/-- Where logs are asked for, the logs of one more file are those before it and its own. -/
theorem writeLogs_concat (hdone : Completes setup t o done) (hlogs : o.writesLogs = true)
    (path : String) : writeLogs t o.resultsDir ((done ++ [path]).map (reportOn setup t)) =
      writeLog (treeAfter setup t o done) o.resultsDir (reportOn setup t path) := by
  rw [List.map_append, List.map_singleton, writeLogs_append_ok (hdone.logs hlogs),
    writeLogs_singleton, treeAfter, if_pos hlogs]

/-- One file of a run: a text is run, and its log is written if one is asked for. -/
theorem runOne_of_isText (hdone : Completes setup t o done) (htext : t.IsText path)
    (hrun : runFile setup (treeAfter setup t o done) path = runFile setup t path) :
    ∃ fault?, runOne setup o (progress setup t o done) path =
      (progress setup t o (done ++ [path]), fault?) ∧
        (fault? = none ↔ Completes setup t o (done ++ [path])) := by
  -- the report is the one on the file at the start, whatever was written since
  have hreport : runFile setup (progress setup t o done).tree path = .ok (reportOn setup t path) :=
    hrun.trans (runFile_of_isText htext)
  have htexts : ∀ other ∈ done ++ [path], t.IsText other :=
    List.forall_mem_append.mpr ⟨hdone.texts, by simpa using htext⟩
  rw [runOne, hreport]
  dsimp only
  by_cases hlogs : o.writesLogs = true
  · have hmore := writeLogs_concat hdone hlogs path
    have htree : treeAfter setup t o (done ++ [path]) =
        (writeLog (treeAfter setup t o done) o.resultsDir (reportOn setup t path)).2 := by
      rw [treeAfter, if_pos hlogs, hmore]
    have hiff : Completes setup t o (done ++ [path]) ↔
        (writeLog (treeAfter setup t o done) o.resultsDir (reportOn setup t path)).1 = .ok () := by
      rw [← hmore]
      exact ⟨fun h => h.logs hlogs, fun h => ⟨htexts, fun _ => h⟩⟩
    rw [if_pos hlogs, hiff, progress, progress, htree, List.map_append, List.map_singleton]
    dsimp only
    rcases writeLog (treeAfter setup t o done) o.resultsDir (reportOn setup t path) with
      ⟨fault | _, u⟩
    · refine ⟨some fault, rfl, fun h => ?_, fun h => ?_⟩ <;> cases h
    · exact ⟨none, rfl, fun _ => rfl, fun _ => rfl⟩
  · have htree (paths : List String) : treeAfter setup t o paths = t := if_neg hlogs
    rw [if_neg hlogs, progress, progress, htree, htree, List.map_append, List.map_singleton]
    exact ⟨none, rfl, fun _ => ⟨htexts, fun h => absurd h hlogs⟩, fun _ => rfl⟩

/-- One file of a run: what is no text stops it. -/
theorem runOne_of_not_isText (htext : ¬ t.IsText path)
    (hrun : runFile setup (treeAfter setup t o done) path = runFile setup t path) :
    ∃ fault, runOne setup o (progress setup t o done) path =
      (progress setup t o done, some fault) := by
  obtain ⟨fault, hfault⟩ := runFile_of_not_isText setup htext
  refine ⟨fault, ?_⟩
  have hfault' : runFile setup (progress setup t o done).tree path = .error fault := hrun.trans hfault
  rw [runOne, hfault']

/-- How far a run gets through files after others, whatever becomes of their forms. It ends with a
fault unless nothing stops it, and it gets as far as nothing stops it. -/
structure Reaches (setup : Setup) (t : FileTree) (o : Options) (done paths ran : List String)
    (fault? : Option FileFault) : Prop where
  run : runAll setup o (progress setup t o done) paths = (progress setup t o (done ++ ran), fault?)
  initial : ran <+: paths
  complete : fault? = none ↔ Completes setup t o (done ++ paths)
  further : ∀ front, front <+: paths → Completes setup t o (done ++ front) → front <+: ran

variable {ran : List String} {fault? : Option FileFault}

theorem append_cons_eq (done : List String) (path : String) (rest : List String) :
    done ++ path :: rest = done ++ [path] ++ rest := by rw [List.append_assoc, List.singleton_append]

theorem Reaches.nil (hdone : Completes setup t o done) : Reaches setup t o done [] [] none where
  run := by
    rw [List.append_nil]
    rfl
  initial := List.prefix_rfl
  complete := by
    rw [List.append_nil]
    exact ⟨fun _ => hdone, fun _ => rfl⟩
  further _ h _ := h

/-- A file that does not stop the run is followed by what comes after it. -/
theorem Reaches.cons (hone : runOne setup o (progress setup t o done) path =
    (progress setup t o (done ++ [path]), none))
    (h : Reaches setup t o (done ++ [path]) paths ran fault?) :
    Reaches setup t o done (path :: paths) (path :: ran) fault? where
  run := by
    rw [runAll, hone, append_cons_eq done path ran]
    exact h.run
  initial := (List.prefix_cons_inj path).mpr h.initial
  complete := by
    rw [append_cons_eq]
    exact h.complete
  further front hfront hgoes := by
    rcases List.prefix_cons_iff.mp hfront with rfl | ⟨rest, rfl, hinitial⟩
    · exact List.nil_prefix
    · rw [append_cons_eq done path rest] at hgoes
      exact (List.prefix_cons_inj path).mpr (h.further rest hinitial hgoes)

/-- A file that stops the run is the last that the run looks at. -/
theorem Reaches.stop {fault : FileFault} (hran : ran <+: path :: paths)
    (hone : runOne setup o (progress setup t o done) path =
      (progress setup t o (done ++ ran), some fault))
    (hstops : ∀ rest, ¬ Completes setup t o (done ++ path :: rest)) :
    Reaches setup t o done (path :: paths) ran (some fault) where
  run := by rw [runAll, hone]
  initial := hran
  complete := ⟨nofun, fun h => absurd h (hstops paths)⟩
  further front hfront hgoes := by
    -- nothing goes past the file
    rcases List.prefix_cons_iff.mp hfront with rfl | ⟨rest, rfl, -⟩
    · exact List.nil_prefix
    · exact absurd hgoes (hstops rest)

/-- Files in a row: the run goes on as long as nothing stops it. -/
theorem exists_reaches (hdone : Completes setup t o done)
    (hendings : ∀ other ∈ done ++ paths, hasEnding other = true)
    (hfiles : ∀ other ∈ paths, t.isFile other = true) :
    ∃ ran fault?, Reaches setup t o done paths ran fault? := by
  induction paths generalizing done with
  | nil => exact ⟨[], none, .nil hdone⟩
  | cons path paths ih =>
    obtain ⟨hbefore, hafter⟩ := List.forall_mem_append.mp hendings
    obtain ⟨hfile, hrest⟩ := List.forall_mem_cons.mp hfiles
    -- only logs were written so far, and the file is no log
    have hrun : runFile setup (treeAfter setup t o done) path = runFile setup t path :=
      runFile_of_preserves (hafter path List.mem_cons_self) hfile (preserves_treeAfter hbefore)
    by_cases htext : t.IsText path
    · obtain ⟨fault?, hone, hfault⟩ := runOne_of_isText hdone htext hrun
      cases fault? with
      | none =>
        -- the rest is run from the state after this file
        rw [append_cons_eq] at hendings
        obtain ⟨ran, fault?, hreaches⟩ := ih (hfault.mp rfl) hendings hrest
        exact ⟨path :: ran, fault?, .cons hone hreaches⟩
      | some fault =>
        -- the file was run, but its log could not be written
        refine ⟨[path], some fault, .stop (prefix_append_cons [] path paths) hone fun rest h => ?_⟩
        rw [append_cons_eq] at h
        cases hfault.mpr h.of_append
    · -- the file was not run
      obtain ⟨fault, hone⟩ := runOne_of_not_isText htext hrun
      refine ⟨[], some fault, .stop List.nil_prefix ?_ fun rest h => ?_⟩
      · rw [List.append_nil]
        exact hone
      · exact htext (h.texts path (List.mem_append_right _ List.mem_cons_self))

theorem exists_run (setup : Setup) (h : Selected t o paths) :
    ∃ ran fault?, Reaches setup t o [] paths ran fault? :=
  exists_reaches (.nil setup t o) h.hasEnding h.isFile

/-- A run that nothing stops gets to all of its files. -/
theorem Reaches.eq_of_none (h : Reaches setup t o [] paths ran none) : ran = paths := by
  have hgoes : Completes setup t o ([] ++ paths) := h.complete.mp rfl
  -- each of the two is an initial part of the other
  exact h.initial.eq_of_length_le (h.further paths List.prefix_rfl hgoes).length_le

theorem run_eq (hselect : select t o = .ok paths) (h : Reaches setup t o [] paths ran fault?) :
    run setup t o = resultAfter setup t o paths.length ran fault? := by
  have hprinted : printed setup t ran = String.join ((ran.map (reportOn setup t)).map summary) := by
    rw [List.map_map]
    rfl
  have hall := h.run
  rw [progress_nil, List.nil_append] at hall
  rw [run, hselect]
  dsimp only
  rw [hall]
  cases fault? with
  | none =>
    rw [resultAfter, hprinted]
    rfl
  | some fault =>
    rw [resultAfter, hprinted]
    rfl

theorem exitCode_eq_zero_iff : (run setup t o).exitCode = 0 ↔
    ∃ paths, Selected t o paths ∧ paths ≠ [] ∧ Completes setup t o paths ∧
      ∀ path ∈ paths, ∀ form ∈ (reportOn setup t path).forms, ∀ e, form.result ≠ .failure e := by
  have hpassed (paths : List String) : (paths.map (reportOn setup t)).all (·.passed) = true ↔
      ∀ path ∈ paths, ∀ form ∈ (reportOn setup t path).forms, ∀ e, form.result ≠ .failure e := by
    simp only [List.all_map, List.all_eq_true, Function.comp_apply, Report.passed_iff]
  constructor
  · intro h
    rcases hselect : select t o with refusal | paths
    · rw [run, hselect] at h
      cases h
    obtain ⟨hselected, hne⟩ := select_eq_ok.mp hselect
    obtain ⟨ran, fault?, hreaches⟩ := exists_run setup hselected
    cases fault? with
    | none =>
      obtain rfl := hreaches.eq_of_none
      rw [run_eq hselect hreaches, resultAfter] at h
      dsimp only at h
      refine ⟨ran, hselected, hne, hreaches.complete.mp rfl, (hpassed ran).mp ?_⟩
      -- otherwise the exit code would be one
      by_contra hfails
      rw [if_neg hfails] at h
      cases h
    | some fault =>
      rw [run_eq hselect hreaches] at h
      cases h
  · rintro ⟨paths, hselected, hne, hgoes, hforms⟩
    have hselect := select_eq_ok.mpr ⟨hselected, hne⟩
    obtain ⟨ran, fault?, hreaches⟩ := exists_run setup hselected
    obtain rfl := hreaches.complete.mpr hgoes
    obtain rfl := hreaches.eq_of_none
    rw [run_eq hselect hreaches]
    exact if_pos ((hpassed ran).mpr hforms)

/-- The totals count every file once. -/
theorem stdout_of_completes (hselected : Selected t o paths) (hne : paths ≠ [])
    (hgoes : Completes setup t o paths) : ∃ passed failed,
      (run setup t o).stdout = opening paths.length ++ printed setup t paths ++
        closing o paths.length passed failed ∧
      passed + failed = paths.length ∧
      failed = paths.countP fun path => (reportOn setup t path).forms.any (·.result.isFailure) := by
  have hselect := select_eq_ok.mpr ⟨hselected, hne⟩
  obtain ⟨ran, fault?, hreaches⟩ := exists_run setup hselected
  obtain rfl := hreaches.complete.mpr hgoes
  obtain rfl := hreaches.eq_of_none
  have hlength : (ran.map (reportOn setup t)).length = ran.length := List.length_map _
  refine ⟨(ran.map (reportOn setup t)).countP (·.passed),
    (ran.map (reportOn setup t)).countP (!·.passed), ?_, ?_, ?_⟩
  · rw [run_eq hselect hreaches, resultAfter, totals_eq, hlength]
  · rw [← hlength, List.length_eq_countP_add_countP (·.passed)]
    simp
  · simp only [List.countP_map, Function.comp_def, Report.not_passed_eq_any]

/-- Without totals there are at most reports. -/
theorem stdout_of_not_completes
    (h : ¬ ∃ paths, Selected t o paths ∧ paths ≠ [] ∧ Completes setup t o paths) :
    (run setup t o).stdout = "" ∨ ∃ paths ran, Selected t o paths ∧ ran <+: paths ∧
      (run setup t o).stdout = opening paths.length ++ printed setup t ran := by
  rcases hselect : select t o with refusal | paths
  · left
    rw [run, hselect]
  obtain ⟨hselected, hne⟩ := select_eq_ok.mp hselect
  obtain ⟨ran, fault?, hreaches⟩ := exists_run setup hselected
  cases fault? with
  | none => exact absurd ⟨paths, hselected, hne, hreaches.complete.mp rfl⟩ h
  | some fault =>
    right
    refine ⟨paths, ran, hselected, hreaches.initial, ?_⟩
    rw [run_eq hselect hreaches, resultAfter]

/-- A log stays until a file of the same name is run. -/
theorem readText_treeAfter {before more : List String} (hlogs : o.writesLogs = true)
    (hendings : ∀ other ∈ before ++ path :: more, hasEnding other = true)
    (hgoes : Completes setup t o (before ++ [path]))
    (hlater : ∀ later ∈ more, Path.fileName later ≠ Path.fileName path) :
    (treeAfter setup t o (before ++ path :: more)).readText
      (logPath o.resultsDir (reportOn setup t path)) = .ok (reportOn setup t path).log := by
  have hnames := slash_not_mem_reportOn setup t hendings
  have hwritten := hgoes.logs hlogs
  rw [List.map_append, List.map_cons] at hnames
  rw [List.map_append, List.map_singleton] at hwritten
  rw [treeAfter, if_pos hlogs, List.map_append, List.map_cons]
  apply readText_writeLogs hnames hwritten
  exact List.forall_mem_map.mpr hlater

/-- A file is run if nothing stops the run before it or at it. -/
theorem run_later {before after : List String}
    (hselected : Selected t o (before ++ path :: after)) (hgoes : Completes setup t o (before ++ [path])) :
    (∃ ran rest, before ++ [path] <+: ran ∧ ran <+: before ++ path :: after ∧
      (run setup t o).stdout = opening (before ++ path :: after).length ++ printed setup t ran ++ rest ∧
      (run setup t o).tree = treeAfter setup t o ran) ∧
    (o.writesLogs = true → (∀ later ∈ after, Path.fileName later ≠ Path.fileName path) →
      (run setup t o).tree.readText (logPath o.resultsDir (reportOn setup t path)) =
        .ok (reportOn setup t path).log) := by
  have hne : before ++ path :: after ≠ [] := List.append_ne_nil_of_right_ne_nil _ (List.cons_ne_nil _ _)
  have hselect := select_eq_ok.mpr ⟨hselected, hne⟩
  obtain ⟨ran, fault?, hreaches⟩ := exists_run setup hselected
  -- the file is among those that the run gets to
  have hran := hreaches.further (before ++ [path]) (prefix_append_cons before path after) hgoes
  have hinitial := hreaches.initial
  have htree : (run setup t o).tree = treeAfter setup t o ran := by
    rw [run_eq hselect hreaches]
    cases fault? <;> rfl
  constructor
  · rw [htree, run_eq hselect hreaches]
    cases fault? with
    | none => exact ⟨ran, totals o (ran.map (reportOn setup t)), hran, hinitial, rfl, rfl⟩
    | some fault => exact ⟨ran, "", hran, hinitial, String.append_empty.symm, rfl⟩
  · intro hlogs hlater
    obtain ⟨more, rfl⟩ := hran
    have hsplit : before ++ [path] ++ more = before ++ path :: more := by
      rw [List.append_assoc, List.singleton_append]
    rw [hsplit] at hinitial htree
    have hmore : more <+: after :=
      (List.prefix_cons_inj path).mp ((List.prefix_append_right_inj before).mp hinitial)
    rw [htree]
    apply readText_treeAfter hlogs ?_ hgoes
    · exact fun later hmem => hlater later (hmore.subset hmem)
    · exact fun other hmem => hselected.hasEnding other (hinitial.subset hmem)

end

/-- The exit code of a run is zero if and only if there are selected files, nothing stops the run over
them and no form of them fails. Names that are relative and go nowhere up are then those of files below
the directory. Unless something stops it, the run ends with totals, in which every file passed or
failed, and those failed that have a form that fails; otherwise no totals are printed. Forms that fail
stop nothing: a file is run, and its log can be read afterwards unless a later file has the same name,
if it and those before it are texts whose logs can be written. -/
theorem exitStatus_faithful (setup : Setup) (t : FileTree) (o : Options) :
    ((run setup t o).exitCode = 0 ↔
      ∃ paths, Selected t o paths ∧ paths ≠ [] ∧ Completes setup t o paths ∧
        ∀ path ∈ paths, ∀ form ∈ (reportOn setup t path).forms, ∀ e, form.result ≠ .failure e) ∧
    ((run setup t o).exitCode = 0 → ∀ name ∈ o.files, Path.isAbsolute name = false →
      ".." ∉ Path.components name → t.HasFileBelow o.dir name) ∧
    (∀ paths, Selected t o paths → paths ≠ [] → Completes setup t o paths → ∃ passed failed,
      (run setup t o).stdout = opening paths.length ++ printed setup t paths ++
        closing o paths.length passed failed ∧
      passed + failed = paths.length ∧
      failed = paths.countP fun path => (reportOn setup t path).forms.any (·.result.isFailure)) ∧
    ((¬ ∃ paths, Selected t o paths ∧ paths ≠ [] ∧ Completes setup t o paths) →
      (run setup t o).stdout = "" ∨ ∃ paths ran, Selected t o paths ∧ ran <+: paths ∧
        (run setup t o).stdout = opening paths.length ++ printed setup t ran) ∧
    (∀ before path after, Selected t o (before ++ path :: after) →
      (∀ other ∈ before ++ [path], t.IsText other) →
      (o.writesLogs = true → CanLog t o.resultsDir ((before ++ [path]).map Path.fileName)) →
      (∃ ran rest, before ++ [path] <+: ran ∧ ran <+: before ++ path :: after ∧
        (run setup t o).stdout =
          opening (before ++ path :: after).length ++ printed setup t ran ++ rest ∧
        (run setup t o).tree = treeAfter setup t o ran) ∧
      (o.writesLogs = true → (∀ later ∈ after, Path.fileName later ≠ Path.fileName path) →
        (run setup t o).tree.readText (logPath o.resultsDir (reportOn setup t path)) =
          .ok (reportOn setup t path).log)) := by
  refine ⟨exitCode_eq_zero_iff, ?_, fun paths => stdout_of_completes, stdout_of_not_completes, ?_⟩
  · intro hzero name hmem hrelative hdots
    obtain ⟨paths, hselected, -⟩ := exitCode_eq_zero_iff.mp hzero
    exact hselected.hasFileBelow hmem hrelative hdots
  · intro before path after hselected htexts hlogs
    have hendings : ∀ other ∈ before ++ [path], hasEnding other = true :=
      fun other hmem => hselected.hasEnding other ((prefix_append_cons before path after).subset hmem)
    exact run_later hselected (completes_of_canLog hendings htexts hlogs)

theorem reportOn_bool {t : FileTree} {path : String} {b : Bool}
    (h : t.find path = .ok (.file (Datum.boolText b).toUTF8)) :
    reportOn { depth := 5 } t path = boolReport (Path.fileName path) b := by
  rw [reportOn, FileTree.textAt_of_find h, ofText_boolText]

/-- A program that is a single boolean does not fail. -/
theorem exitCode_bool {t : FileTree} {o : Options} {path : String} {b : Bool}
    (hselect : select t o = .ok [path]) (hfind : t.find path = .ok (.file (Datum.boolText b).toUTF8))
    (hlogs : o.writesLogs = true → CanLog t o.resultsDir [Path.fileName path]) :
    (run { depth := 5 } t o).exitCode = 0 := by
  obtain ⟨hselected, hne⟩ := select_eq_ok.mp hselect
  have htexts : ∀ other ∈ [path], t.IsText other := by
    rw [List.forall_mem_singleton]
    exact FileTree.isText_of_find hfind
  apply exitCode_eq_zero_iff.mpr
  refine ⟨[path], hselected, hne, completes_of_canLog hselected.hasEnding htexts hlogs, ?_⟩
  rw [List.forall_mem_singleton, reportOn_bool hfind, boolReport, List.forall_mem_singleton]
  exact fun _ => nofun

/-- A program with a form that fails, and one without. -/
def mixed : FileTree where
  entries := [(["demos"], .directory), (["demos", "a.scheme"], .file "(#t)".toUTF8),
    (["demos", "b.scheme"], .file "#t".toUTF8)]

def mixedOptions : Options := { files := ["a.scheme", "b.scheme"] }

theorem ofText_call (name : String) : Report.ofText { depth := 5 } name "(#t)" =
    ⟨name, [⟨"(#t)", .failure (.type (.headNotProcedure "#t" "#t"))⟩]⟩ := by
  have hforms : Text.topLevelForms "(#t)" = ["(#t)"] := by decide
  have hprogram : Program.ofText "(#t)" = .single (.list [.bool true]) := by
    have htokens : tokenize "(#t)" = [.lparen, .word "#t", .rparen] := by decide
    have hread : Datum.read [.lparen, .word "#t", .rparen] = (.ok (.list [.bool true]), []) := by rfl
    rw [Program.ofText, htokens, Program.ofTokens_ok hread, Program.ofTokens_nil]
    rfl
  rw [Report.ofText, hforms, Report.evalForms_cons, Session.evaluate, hprogram]
  rfl

theorem find_mixed_first : mixed.find "demos/a.scheme" = .ok (.file "(#t)".toUTF8) := by rfl

theorem find_mixed_second :
    mixed.find "demos/b.scheme" = .ok (.file (Datum.boolText true).toUTF8) := by rfl

theorem isText_mixed : ∀ path ∈ ["demos/a.scheme", "demos/b.scheme"], mixed.IsText path := by
  simp only [List.forall_mem_cons]
  exact ⟨FileTree.isText_of_find find_mixed_first, FileTree.isText_of_find find_mixed_second, nofun⟩

theorem canLog_mixed : CanLog mixed "test-results" ["a.scheme", "b.scheme"] := by
  refine ⟨rfl, ?_⟩
  simp only [List.forall_mem_cons]
  exact ⟨⟨["test-results", "a.scheme.log"], rfl, nofun⟩,
    ⟨["test-results", "b.scheme.log"], rfl, nofun⟩, nofun⟩

theorem reportOn_mixed_first : reportOn { depth := 5 } mixed "demos/a.scheme" =
    ⟨"a.scheme", [⟨"(#t)", .failure (.type (.headNotProcedure "#t" "#t"))⟩]⟩ := by
  rw [reportOn, FileTree.textAt_of_find find_mixed_first, ofText_call]
  rfl

theorem reportOn_mixed_second :
    reportOn { depth := 5 } mixed "demos/b.scheme" = boolReport "b.scheme" true :=
  reportOn_bool find_mixed_second

/-- The first program fails, but the second is run, and its log is there in the end. On its own the
second program passes. -/
theorem exitStatus_faithful_mixed :
    (run { depth := 5 } mixed mixedOptions).exitCode ≠ 0 ∧
      (run { depth := 5 } mixed { files := ["b.scheme"] }).exitCode = 0 ∧
      mixed.HasFileBelow "demos" "b.scheme" ∧
      (∃ before, (run { depth := 5 } mixed mixedOptions).stdout =
        before ++ closing mixedOptions 2 1 1) ∧
      (run { depth := 5 } mixed mixedOptions).tree.readText "test-results/b.scheme.log" =
        .ok (boolReport "b.scheme" true).log := by
  have hselect : select mixed mixedOptions = .ok ["demos/a.scheme", "demos/b.scheme"] := by rfl
  obtain ⟨hselected, hne⟩ := select_eq_ok.mp hselect
  have hgoes : Completes { depth := 5 } mixed mixedOptions ["demos/a.scheme", "demos/b.scheme"] :=
    completes_of_canLog hselected.hasEnding isText_mixed fun _ => canLog_mixed
  obtain ⟨hcode, -, htotals, -, hlater⟩ := exitStatus_faithful { depth := 5 } mixed mixedOptions
  have hlast : (run { depth := 5 } mixed { files := ["b.scheme"] }).exitCode = 0 := by
    apply exitCode_bool rfl find_mixed_second
    intro _
    exact ⟨canLog_mixed.makes, fun name hmem => canLog_mixed.free name (List.mem_cons_of_mem _ hmem)⟩
  refine ⟨fun hzero => ?_, hlast, ?_, ?_, ?_⟩
  · -- with exit code zero no form of the first program would fail
    obtain ⟨paths, hpaths, hsome, -, hforms⟩ := hcode.mp hzero
    have hsame : paths = ["demos/a.scheme", "demos/b.scheme"] := by
      have h := select_eq_ok.mpr ⟨hpaths, hsome⟩
      rw [hselect] at h
      exact (Except.ok.inj h).symm
    rw [hsame, List.forall_mem_cons, reportOn_mixed_first] at hforms
    exact hforms.1 _ List.mem_cons_self _ rfl
  · obtain ⟨-, hbelow, -⟩ := exitStatus_faithful { depth := 5 } mixed { files := ["b.scheme"] }
    exact hbelow hlast "b.scheme" List.mem_cons_self rfl (by decide)
  · obtain ⟨passed, failed, hstdout, hcounts, hfailed⟩ := htotals _ hselected hne hgoes
    have hone : failed = 1 := by
      rw [hfailed, List.countP_cons, List.countP_singleton, reportOn_mixed_first,
        reportOn_mixed_second]
      rfl
    have hother : passed = 1 := by
      rw [hone] at hcounts
      exact Nat.succ.inj hcounts
    rw [hone, hother] at hstdout
    exact ⟨_, hstdout⟩
  · obtain ⟨-, hlog⟩ := hlater ["demos/a.scheme"] "demos/b.scheme" [] hselected isText_mixed
      fun _ => canLog_mixed
    rw [reportOn_mixed_second] at hlog
    exact hlog rfl nofun

/-- A program beside the directory, which is empty. -/
def astray : FileTree where
  entries := [(["demos"], .directory), (["other"], .directory),
    (["other", "x.scheme"], .file "#t".toUTF8)]

def astrayOptions : Options := { files := ["../other/x.scheme"], writesLogs := false }

/-- A name may lead out of the directory, and the exit code is zero all the same. -/
theorem exitCode_zero_outside :
    (run { depth := 5 } astray astrayOptions).exitCode = 0 ∧
      ∃ name ∈ astrayOptions.files, ¬ astray.HasFileBelow astrayOptions.dir name := by
  have hfind : astray.find "demos/../other/x.scheme" = .ok (.file (Datum.boolText true).toUTF8) := by
    rfl
  constructor
  · exact exitCode_bool rfl hfind nofun
  · refine ⟨"../other/x.scheme", List.mem_cons_self, ?_⟩
    rintro ⟨base, place, -, hbase, -, hplace, -, hbelow⟩
    have hbase' : astray.locate "demos" = .ok ["demos"] := by rfl
    have hplace' : astray.locate (Path.join "demos" "../other/x.scheme") =
        .ok ["other", "x.scheme"] := by rfl
    have hdir : base = ["demos"] := Except.ok.inj (hbase.symm.trans hbase')
    have hfile : place = ["other", "x.scheme"] := Except.ok.inj (hplace.symm.trans hplace')
    rw [hdir, hfile] at hbelow
    exact absurd hbelow (by decide)

end Batch

end SmallScheme
