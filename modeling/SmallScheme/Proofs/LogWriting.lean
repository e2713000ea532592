import SmallScheme.Proofs.Directories
import SmallScheme.Proofs.Logs

/-! The logs of several reports, written one after the other.

Whether they can all be written depends on the names of the reports alone, not on what became of their
forms: the directory of the results has to be made, and no directory may stand where a log goes. Main
statements: `writeLogs_ok_iff`, and `readText_writeLogs`, a log stays until one of the same name is
written. -/
namespace SmallScheme.Batch

/-- Writes the logs of reports in order, up to the first that cannot be written. -/
def writeLogs (t : FileTree) (dir : String) : List Report → Except FileFault Unit × FileTree
  | [] => (.ok (), t)
  | r :: rs =>
    match writeLog t dir r with
    | (.error fault, u) => (.error fault, u)
    | (.ok (), u) => writeLogs u dir rs

/-- Logs of these names can be written: their directory can be made, and where they go there is then no
directory. -/
structure CanLog (t : FileTree) (dir : String) (names : List String) : Prop where
  makes : (t.makeDirectory dir).1 = .ok ()
  free : ∀ name ∈ names, (t.makeDirectory dir).2.Free (Path.join dir (name ++ ".log"))

section
variable {t u : FileTree} {dir : String}

theorem writeLogs_singleton (t : FileTree) (dir : String) (r : Report) :
    writeLogs t dir [r] = writeLog t dir r := by
  rw [writeLogs]
  rcases writeLog t dir r with ⟨fault | _, u⟩ <;> rfl

/-- Logs after others are written only if all of the others are. -/
theorem writeLogs_append (t : FileTree) (dir : String) (rs rs' : List Report) :
    writeLogs t dir (rs ++ rs') =
      match writeLogs t dir rs with
      | (.error fault, u) => (.error fault, u)
      | (.ok (), u) => writeLogs u dir rs' := by
  induction rs generalizing t with
  | nil => rfl
  | cons r rs ih =>
    rw [List.cons_append, writeLogs, writeLogs]
    rcases writeLog t dir r with ⟨fault | _, u⟩
    · rfl
    · exact ih u

theorem writeLogs_append_ok {rs : List Report} (h : (writeLogs t dir rs).1 = .ok ())
    (rs' : List Report) :
    writeLogs t dir (rs ++ rs') = writeLogs (writeLogs t dir rs).2 dir rs' := by
  rw [writeLogs_append]
  rcases hwritten : writeLogs t dir rs with ⟨fault | _, u⟩
  · rw [hwritten] at h
    cases h
  · rfl

theorem writeLogs_ok_of_append {rs rs' : List Report}
    (h : (writeLogs t dir (rs ++ rs')).1 = .ok ()) : (writeLogs t dir rs).1 = .ok () := by
  rw [writeLogs_append] at h
  rcases hwritten : writeLogs t dir rs with ⟨fault | _, u⟩
  · rw [hwritten] at h
    cases h
  · rfl

/-- Whether or not a log can be written, the files of other names are kept. -/
theorem preserves_writeLog (t : FileTree) (dir : String) {r : Report} (hname : '/' ∉ r.name.toList) :
    t.Preserves (Spares [r.name]) (writeLog t dir r).2 := by
  have hmake := (t.preserves_makeDirectory dir).mono fun place (_ : Spares [r.name] place) => trivial
  rcases hwrite : writeLog t dir r with ⟨fault | _, u⟩
  · -- only directories were made
    rw [writeLog] at hwrite
    rcases hmade : t.makeDirectory dir with ⟨fault | _, v⟩
    · rw [hmade] at hwrite hmake
      cases hwrite
      exact hmake
    · rw [hmade] at hwrite hmake
      dsimp only at hwrite
      split at hwrite
      · cases hwrite
        exact hmake
      · cases hwrite
  · exact (writeLog_ok hname hwrite).1

theorem preserves_writeLogs (t : FileTree) (dir : String) {rs : List Report}
    (hnames : ∀ r ∈ rs, '/' ∉ r.name.toList) :
    t.Preserves (Spares (rs.map Report.name)) (writeLogs t dir rs).2 := by
  induction rs generalizing t with
  | nil => exact .refl _ t
  | cons r rs ih =>
    obtain ⟨hname, hrest⟩ := List.forall_mem_cons.mp hnames
    have hfirst := (preserves_writeLog t dir hname).mono
      fun _ (h : Spares (r.name :: rs.map Report.name) _) =>
        h.of_subset (List.cons_subset_cons _ (List.nil_subset _))
    rw [writeLogs, List.map_cons]
    rcases hwrite : writeLog t dir r with ⟨fault | _, u⟩
    · rw [hwrite] at hfirst
      exact hfirst
    · rw [hwrite] at hfirst
      exact hfirst.trans ((ih u hrest).mono fun _ h => h.of_subset (List.subset_cons_self _ _))

/-- A log that is written can be read until a log of the same name is written. -/
theorem readText_writeLogs {before after : List Report} {r : Report}
    (hnames : ∀ other ∈ before ++ r :: after, '/' ∉ other.name.toList)
    (h : (writeLogs t dir (before ++ [r])).1 = .ok ()) (hother : ∀ later ∈ after, later.name ≠ r.name) :
    (writeLogs t dir (before ++ r :: after)).2.readText (logPath dir r) = .ok r.log := by
  obtain ⟨-, hnames⟩ := List.forall_mem_append.mp hnames
  obtain ⟨hname, hlater⟩ := List.forall_mem_cons.mp hnames
  have hbefore := writeLogs_ok_of_append h
  rw [writeLogs_append_ok hbefore] at h
  rw [writeLogs_append_ok hbefore]
  rcases hwrite : writeLog (writeLogs t dir before).2 dir r with ⟨fault | _, u⟩
  · rw [writeLogs, hwrite] at h
    cases h
  rw [writeLogs, hwrite]
  -- the logs after it go elsewhere
  have hmem : r.name ∉ after.map Report.name := by
    intro hmem
    obtain ⟨later, hmem, heq⟩ := List.mem_map.mp hmem
    exact hother later hmem heq
  exact readText_logPath_of_preserves hname hmem (preserves_writeLogs u dir hlater)
    (writeLog_ok hname hwrite).2

/-- Once the directory of the results is there, a log can be written where a file may stand, and
that changes nothing for later logs. -/
theorem writeLog_ok_iff {r : Report} (hname : '/' ∉ r.name.toList)
    (hdir : t.makeDirectory dir = (.ok (), t)) :
    (writeLog t dir r).1 = .ok () ↔ t.Free (logPath dir r) := by
  rw [writeLog, hdir]
  dsimp only
  constructor
  · intro h
    split at h
    · cases h
    · next hwrite => exact FileTree.free_of_writeFile hwrite
  · intro h
    obtain ⟨u, hwrite⟩ := FileTree.exists_writeFile (endsWith_logPath dir hname) h r.log.toUTF8
    rw [hwrite]

theorem sameDirectories_writeLog {r : Report} (hdir : t.makeDirectory dir = (.ok (), t))
    (h : writeLog t dir r = (.ok (), u)) : t.SameDirectories u := by
  rw [writeLog, hdir] at h
  dsimp only at h
  split at h
  · cases h
  · next hwrite =>
    cases h
    obtain ⟨place, -, hplace, rfl⟩ := FileTree.writeFile_eq_ok hwrite
    exact FileTree.sameDirectories_put hplace _

theorem writeLogs_ok_iff_free {rs : List Report} (hnames : ∀ r ∈ rs, '/' ∉ r.name.toList)
    (hdir : t.makeDirectory dir = (.ok (), t)) :
    (writeLogs t dir rs).1 = .ok () ↔ ∀ r ∈ rs, t.Free (logPath dir r) := by
  induction rs generalizing t with
  | nil => exact ⟨fun _ => nofun, fun _ => rfl⟩
  | cons r rs ih =>
    obtain ⟨hname, hrest⟩ := List.forall_mem_cons.mp hnames
    have hfirst := writeLog_ok_iff hname hdir
    rw [List.forall_mem_cons, writeLogs]
    rcases hwrite : writeLog t dir r with ⟨fault | _, u⟩
    · rw [hwrite] at hfirst
      exact ⟨nofun, fun h => nomatch hfirst.mpr h.1⟩
    · rw [hwrite] at hfirst
      -- the log is no directory, so all is as before for the others
      have hsame := sameDirectories_writeLog hdir hwrite
      have hagain := FileTree.makeDirectory_again hdir (writeLog_ok hname hwrite).1
      have hothers : (∀ r ∈ rs, u.Free (logPath dir r)) ↔ ∀ r ∈ rs, t.Free (logPath dir r) := by
        simp only [hsame.free_iff]
      rw [← hothers, ← ih hrest hagain]
      exact ⟨fun h => ⟨hfirst.mp rfl, h⟩, fun h => h.2⟩

/-- Logs are written if and only if those of their names can be. -/
theorem writeLogs_ok_iff {rs : List Report} (hne : rs ≠ []) (hnames : ∀ r ∈ rs, '/' ∉ r.name.toList) :
    (writeLogs t dir rs).1 = .ok () ↔ CanLog t dir (rs.map Report.name) := by
  obtain ⟨r, rest, rfl⟩ := List.exists_cons_of_ne_nil hne
  rcases hmade : t.makeDirectory dir with ⟨fault | _, u⟩
  · have hfails : (writeLogs t dir (r :: rest)).1 = .error fault := by
      rw [writeLogs, writeLog, hmade]
    rw [hfails]
    constructor
    · intro h
      cases h
    · intro h
      have hmakes := h.makes
      rw [hmade] at hmakes
      cases hmakes
  · -- the directory may as well be made before the first log
    have hagain := FileTree.makeDirectory_again hmade (.refl (fun _ => True) u)
    have hstart : writeLogs t dir (r :: rest) = writeLogs u dir (r :: rest) := by
      rw [writeLogs, writeLog, hmade, writeLogs, writeLog, hagain]
    rw [hstart, writeLogs_ok_iff_free hnames hagain]
    constructor
    · intro h
      refine ⟨?_, List.forall_mem_map.mpr ?_⟩
      · rw [hmade]
      · rw [hmade]
        exact h
    · intro h
      have hfree := List.forall_mem_map.mp h.free
      rw [hmade] at hfree
      exact hfree

end

end SmallScheme.Batch
