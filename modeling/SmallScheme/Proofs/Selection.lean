import SmallScheme.Proofs.Directories
import SmallScheme.Proofs.Logs

/-! Which files a batch run selects.

A command line without files selects the programs of the directory, and one with files selects just
these, if all of them are programs. Main statement: `select_eq_ok`, the selection is the list that is
described here, as long as that has a file. -/
namespace SmallScheme.Batch

/-- The names of the programs in a directory, in order: the files whose names have something before the
ending. -/
structure Programs (t : FileTree) (dir : String) (names : List String) : Prop where
  isDirectory : t.isDirectory dir = true
  sorted : names.Pairwise fun a b => compare a b = .lt
  mem_iff : ∀ name, name ∈ names ↔ t.Holds dir name ∧ (∃ stem, stem ≠ "" ∧ name = stem ++ ending) ∧
    t.isFile (Path.join dir name) = true

/-- The paths of the files that a run is asked for, where nothing is wrong with any of them. -/
inductive Selected (t : FileTree) (o : Options) : List String → Prop
  /-- Without files these are the programs of the directory. -/
  | programs {names : List String} (hfiles : o.files = []) (hnames : Programs t o.dir names) :
    Selected t o (names.map (Path.join o.dir))
  /-- Every name has the ending of programs and is that of a file, seen from the directory. -/
  | named (hfiles : o.files ≠ []) (hnames : ∀ name ∈ o.files,
      (∃ stem, name = stem ++ ending) ∧ t.isFile (Path.join o.dir name) = true) :
    Selected t o (o.files.map (Path.join o.dir))

theorem hasEnding_iff_exists {name : String} :
    hasEnding name = true ↔ ∃ stem, name = stem ++ ending := by
  rw [hasEnding_iff]
  constructor
  · rintro ⟨front, hfront⟩
    refine ⟨String.ofList front, ?_⟩
    rw [← String.toList_inj, String.toList_append, String.toList_ofList, hfront]
  · rintro ⟨stem, rfl⟩
    rw [String.toList_append]
    exact List.suffix_append _ _

/-- Names that are the ending alone are left out. -/
theorem isProgramName_iff {name : String} : (hasEnding name && name != ending) = true ↔
    ∃ stem, stem ≠ "" ∧ name = stem ++ ending := by
  have hwhole (stem : String) : stem ++ ending = ending ↔ stem = "" := by
    constructor
    · intro h
      have hlength := congrArg String.length h
      rw [String.length_append] at hlength
      exact String.length_eq_zero_iff.mp (by omega)
    · rintro rfl
      exact String.empty_append
  rw [Bool.and_eq_true, hasEnding_iff_exists, bne_iff_ne]
  constructor
  · rintro ⟨⟨stem, rfl⟩, hne⟩
    exact ⟨stem, mt (hwhole stem).mpr hne, rfl⟩
  · rintro ⟨stem, hstem, rfl⟩
    exact ⟨⟨stem, rfl⟩, mt (hwhole stem).mp hstem⟩

section
variable {t : FileTree} {dir : String}

/-- Two lists of the programs in a directory are the same. -/
theorem Programs.unique {names names' : List String} (h : Programs t dir names)
    (h' : Programs t dir names') : names = names' := by
  have hdistinct {a b : String} (hlt : compare a b = .lt) : a ≠ b := by
    rintro rfl
    exact Std.OrientedCmp.not_lt_of_lt hlt hlt
  have hperm : names.Perm names' := by
    rw [List.perm_ext_iff_of_nodup (h.sorted.imp hdistinct) (h'.sorted.imp hdistinct)]
    exact fun name => (h.mem_iff name).trans (h'.mem_iff name).symm
  -- of two lists with the same names only one is in order
  apply hperm.eq_of_pairwise ?_ h.sorted h'.sorted
  exact fun a b _ _ hab hba => absurd hba (Std.OrientedCmp.not_lt_of_lt hab)

theorem programs_of_discover {paths : List String} (h : discover t dir = .ok paths) :
    ∃ names, Programs t dir names ∧ paths = names.map (Path.join dir) := by
  rw [discover] at h
  rcases hlist : t.list dir with fault | listed
  · rw [hlist] at h
    cases h
  rw [hlist] at h
  cases h
  obtain ⟨place, hplace, hdir, -⟩ := FileTree.list_eq_ok hlist
  refine ⟨_, ⟨FileTree.isDirectory_iff.mpr ⟨place, hplace, hdir⟩, ?_, fun name => ?_⟩,
    List.filter_map⟩
  · exact ((FileTree.pairwise_list hlist).filter _).filter _
  · -- the names were filtered first by their ending, and then as paths of files
    rw [List.mem_filter, List.mem_filter, FileTree.mem_list hlist, isProgramName_iff, and_assoc]
    rfl

/-- The programs of a directory are discovered. -/
theorem discover_eq_ok {paths : List String} : discover t dir = .ok paths ↔
    ∃ names, Programs t dir names ∧ paths = names.map (Path.join dir) := by
  refine ⟨programs_of_discover, ?_⟩
  rintro ⟨names, hnames, rfl⟩
  obtain ⟨listed, hlist⟩ := FileTree.exists_list hnames.isDirectory
  rcases hfound : discover t dir with fault | found
  · rw [discover, hlist] at hfound
    cases hfound
  · obtain ⟨names', hnames', rfl⟩ := programs_of_discover hfound
    rw [hnames.unique hnames']

theorem locateAll_of_forall {names : List String}
    (h : ∀ name ∈ names, hasEnding name = true ∧ t.isFile (Path.join dir name) = true) :
    locateAll t dir names = .ok (names.map (Path.join dir)) := by
  induction names with
  | nil => rfl
  | cons name names ih =>
    obtain ⟨⟨hending, hfile⟩, hrest⟩ := List.forall_mem_cons.mp h
    have hfirst : locate t dir name = .ok (Path.join dir name) := by
      rw [locate, hending, hfile]
      rfl
    rw [locateAll, hfirst, ih hrest]
    rfl

end

section
variable {t : FileTree} {o : Options} {paths : List String}

/-- What is selected are programs. -/
theorem Selected.hasEnding (h : Selected t o paths) : ∀ path ∈ paths, hasEnding path = true := by
  cases h with
  | programs hfiles hnames =>
    refine List.forall_mem_map.mpr fun name hname => hasEnding_join ?_ o.dir
    obtain ⟨-, ⟨stem, -, hstem⟩, -⟩ := (hnames.mem_iff name).mp hname
    exact hasEnding_iff_exists.mpr ⟨stem, hstem⟩
  | named hfiles hnames =>
    refine List.forall_mem_map.mpr fun name hname => hasEnding_join ?_ o.dir
    exact hasEnding_iff_exists.mpr (hnames name hname).1

/-- What is selected are files. -/
theorem Selected.isFile (h : Selected t o paths) : ∀ path ∈ paths, t.isFile path = true := by
  cases h with
  | programs hfiles hnames =>
    exact List.forall_mem_map.mpr fun name hname => ((hnames.mem_iff name).mp hname).2.2
  | named hfiles hnames =>
    exact List.forall_mem_map.mpr fun name hname => (hnames name hname).2

/-- A selected name that is relative and goes nowhere up is that of a file below the directory. -/
theorem Selected.hasFileBelow (h : Selected t o paths) {name : String} (hmem : name ∈ o.files)
    (hrelative : Path.isAbsolute name = false) (hdots : ".." ∉ Path.components name) :
    t.HasFileBelow o.dir name := by
  cases h with
  | programs hfiles _ =>
    rw [hfiles] at hmem
    cases hmem
  | named _ hnames =>
    obtain ⟨hending, hfile⟩ := hnames name hmem
    obtain ⟨last, hlast, -⟩ := exists_endsWith (hasEnding_iff_exists.mpr hending)
    exact FileTree.hasFileBelow_of_isFile hrelative hdots hlast hfile

theorem select_of_nil (hfiles : o.files = []) :
    select t o = .ok paths ↔ discover t o.dir = .ok paths ∧ paths ≠ [] := by
  have hnone : (!o.files.isEmpty) = false := by rw [hfiles]; rfl
  rw [select, hnone, if_neg Bool.false_ne_true]
  constructor
  · intro h
    rcases hfound : discover t o.dir with fault | found
    · rw [hfound] at h
      cases h
    rw [hfound] at h
    simp only [bind, Except.bind, pure, Except.pure] at h
    split at h
    · cases h
    · next hsome =>
      cases h
      exact ⟨rfl, mt List.isEmpty_iff.mpr hsome⟩
  · rintro ⟨hfound, hne⟩
    have hsome : paths.isEmpty = false := List.isEmpty_eq_false_iff.mpr hne
    rw [hfound]
    simp only [bind, Except.bind, pure, Except.pure, hsome]
    rfl

theorem select_of_ne_nil (hfiles : o.files ≠ []) :
    select t o = .ok paths ↔ locateAll t o.dir o.files = .ok paths := by
  refine ⟨select_ok hfiles, fun h => ?_⟩
  have hsome : (!o.files.isEmpty) = true := by simpa using hfiles
  -- there are as many paths as files, so the list is not refused for being empty
  have hpaths : paths.isEmpty = false := by
    rw [(locateAll_ok h).1, List.isEmpty_eq_false_iff]
    exact mt List.map_eq_nil_iff.mp hfiles
  rw [select, hsome, if_pos rfl, h]
  simp only [bind, Except.bind, hpaths]
  rfl

/-- The selection of a run is the list that is described, of which there has to be a file. -/
theorem select_eq_ok : select t o = .ok paths ↔ Selected t o paths ∧ paths ≠ [] := by
  by_cases hfiles : o.files = []
  · rw [select_of_nil hfiles, discover_eq_ok, and_congr_left_iff]
    intro _
    constructor
    · rintro ⟨names, hnames, rfl⟩
      exact .programs hfiles hnames
    · intro h
      cases h with
      | programs _ hnames => exact ⟨_, hnames, rfl⟩
      | named hne _ => exact absurd hfiles hne
  · rw [select_of_ne_nil hfiles]
    constructor
    · intro h
      obtain ⟨rfl, hnames⟩ := locateAll_ok h
      refine ⟨.named hfiles fun name hname => ?_, mt List.map_eq_nil_iff.mp hfiles⟩
      obtain ⟨hending, hfile⟩ := hnames name hname
      exact ⟨hasEnding_iff_exists.mp hending, hfile⟩
    · rintro ⟨h, -⟩
      cases h with
      | programs hnil _ => exact absurd hnil hfiles
      | named _ hnames =>
        apply locateAll_of_forall
        exact fun name hname => ⟨hasEnding_iff_exists.mpr (hnames name hname).1, (hnames name hname).2⟩

end

end SmallScheme.Batch
