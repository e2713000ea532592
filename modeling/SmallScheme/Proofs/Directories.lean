import SmallScheme.Proofs.FileTree

/-! What the directories of a tree decide.

Where a path leads depends on the directories alone. Making a directory a second time changes nothing,
and writing a file neither makes nor removes a directory, so whether a file can be written is settled
by the directories that were there before. The names in a directory are listed in order, each once. -/
namespace SmallScheme

theorem eraseDups_sublist : (names : List String) → names.eraseDups.Sublist names
  | [] => .slnil
  | name :: names => by
    rw [List.eraseDups_cons]
    exact .cons_cons name ((eraseDups_sublist _).trans List.filter_sublist)
termination_by names => names.length
decreasing_by exact Nat.lt_succ_of_le (List.length_filter_le _ _)

theorem nodup_eraseDups : (names : List String) → names.eraseDups.Nodup
  | [] => .nil
  | name :: names => by
    rw [List.eraseDups_cons, List.nodup_cons]
    refine ⟨fun hmem => ?_, nodup_eraseDups _⟩
    -- the first name was taken out of the others
    have hfilter := (List.mem_filter.mp (List.mem_eraseDups.mp hmem)).2
    simp at hfilter
termination_by names => names.length
decreasing_by exact Nat.lt_succ_of_le (List.length_filter_le _ _)

theorem isLE_total (a b : String) : ((compare a b).isLE || (compare b a).isLE) = true := by
  have hswap : compare b a = (compare a b).swap := Std.OrientedCmp.eq_swap
  rw [hswap]
  cases compare a b <;> rfl

theorem compare_eq_lt {a b : String} (hle : (compare a b).isLE = true) (hne : a ≠ b) :
    compare a b = .lt := by
  rcases hcompare : compare a b with _ | _ | _
  · rfl
  · exact absurd (Std.LawfulEqCmp.eq_of_compare hcompare) hne
  · rw [hcompare] at hle
    cases hle

namespace FileTree

theorem isDirectory_iff {t : FileTree} {path : String} : t.isDirectory path = true ↔
    ∃ place, t.locate path = .ok place ∧ t.node? place = some .directory := by
  rw [← find_eq_ok, isDirectory]
  constructor
  · intro h
    split at h
    · next hfind => exact hfind
    · cases h
  · intro h
    rw [h]

/-- Components are followed one after the other. -/
theorem follow_append_eq_ok {t : FileTree} {place p : List String} {cs ds : List String} :
    t.follow place (cs ++ ds) = .ok p ↔ ∃ mid, t.follow place cs = .ok mid ∧ t.follow mid ds = .ok p := by
  induction cs generalizing place with
  | nil =>
    constructor
    · exact fun h => ⟨place, rfl, h⟩
    · rintro ⟨mid, hmid, h⟩
      cases hmid
      exact h
  | cons c cs ih =>
    rw [List.cons_append, follow_cons_eq_ok, ih]
    constructor
    · rintro ⟨hdir, mid, hmid, hrest⟩
      exact ⟨mid, follow_cons_eq_ok.mpr ⟨hdir, hmid⟩, hrest⟩
    · rintro ⟨mid, hmid, hrest⟩
      obtain ⟨hdir, hfollow⟩ := follow_cons_eq_ok.mp hmid
      exact ⟨hdir, mid, hfollow, hrest⟩

theorem follow_concat_eq_ok {t : FileTree} {place p : List String} {cs : List String} {c : String} :
    t.follow place (cs ++ [c]) = .ok p ↔
      ∃ front, t.follow place cs = .ok front ∧ t.node? front = some .directory ∧ p = step front c := by
  rw [follow_append_eq_ok]
  refine exists_congr fun front => and_congr_right fun _ => ?_
  rw [follow_cons_eq_ok, follow, Except.ok.injEq, @eq_comm _ p]

/-- A path that ends with a name leads to that name in a directory. -/
theorem exists_parent {t : FileTree} {path name : String} {place : List String}
    (hpath : Path.EndsWith path name) (h : t.locate path = .ok place) :
    ∃ front, place = front ++ [name] ∧ t.node? front = some .directory := by
  obtain ⟨before, hroute⟩ := hpath.exists_route
  rw [locate, hroute] at h
  obtain ⟨front, -, hdir, hplace⟩ := follow_concat_eq_ok.mp h
  refine ⟨front, ?_, hdir⟩
  rw [hplace, step, if_neg hpath.notDot, if_neg hpath.notDots]

/-- The trees have the same directories, and paths start from the same place. -/
structure SameDirectories (t u : FileTree) : Prop where
  home : u.home = t.home
  directory : ∀ place, u.node? place = some .directory ↔ t.node? place = some .directory

namespace SameDirectories
variable {t u : FileTree}

theorem follow_eq_ok (h : t.SameDirectories u) {place p : List String} {cs : List String} :
    u.follow place cs = .ok p ↔ t.follow place cs = .ok p := by
  induction cs generalizing place with
  | nil => exact Iff.rfl
  | cons c cs ih => rw [follow_cons_eq_ok, follow_cons_eq_ok, h.directory, ih]

/-- A path leads to the same place in both trees. -/
theorem locate_eq_ok (h : t.SameDirectories u) {path : String} {place : List String} :
    u.locate path = .ok place ↔ t.locate path = .ok place := by
  have hstart : u.start path = t.start path := by rw [start, h.home, start]
  rw [locate, locate, hstart]
  exact h.follow_eq_ok

end SameDirectories

section
variable {t u v : FileTree}

theorem sameDirectories_put {place : List String} (hplace : t.node? place ≠ some .directory)
    (content : ByteArray) : t.SameDirectories (t.put place (.file content)) where
  home := rfl
  directory other := by
    by_cases hother : other = place
    · subst hother
      -- the root is a directory, so it is not where the file goes
      have hne : other ≠ [] := by
        rintro rfl
        exact hplace (node?_nil t)
      rw [node?_put_self t hne]
      exact ⟨nofun, fun h => absurd h hplace⟩
    · rw [node?_put_of_ne t hother]

theorem descend_eq_ok {place next : List String} {c : String} :
    t.descend place c = .ok next ↔ t.node? place = some .directory ∧ step place c = next := by
  rw [descend]
  constructor
  · intro h
    split at h
    · cases h
    · cases h
    · next hdir => exact ⟨hdir, Except.ok.inj h⟩
  · rintro ⟨hdir, rfl⟩
    rw [hdir]

/-- Where making directories has succeeded, it succeeds again and changes nothing, also when something
was written in between. -/
theorem makeFrom_again {kept : List String → Prop} {makesLast made : Bool} {place cs : List String}
    (h : t.makeFrom makesLast made place cs = (.ok (), u)) (hlater : u.Preserves kept v)
    (made' : Bool) : v.makeFrom makesLast made' place cs = (.ok (), v) := by
  induction cs generalizing t made made' place with
  | nil => rfl
  | cons c cs ih =>
    have hkept := t.preserves_makeFrom makesLast made place (c :: cs)
    rw [h] at hkept
    rw [makeFrom] at h
    rcases hnext : t.descend place c with fault | next
    · rw [hnext] at h
      cases h
    rw [hnext] at h
    dsimp only at h
    -- the directory that the component starts from is still there
    obtain ⟨hplace, hstep⟩ := descend_eq_ok.mp hnext
    have hagain : v.descend place c = .ok next :=
      descend_eq_ok.mpr ⟨hlater.directory place (hkept.directory place hplace), hstep⟩
    rw [makeFrom, hagain]
    dsimp only
    split at h
    · next hdir =>
      rw [hlater.directory next (hkept.directory next hdir)]
      exact ih h made'
    · cases h
    · next hnone =>
      split at h
      · -- the directory was made, and now it is there as the others are
        have hrest := (t.put next .directory).preserves_makeFrom makesLast true next cs
        rw [h] at hrest
        have hne : next ≠ [] := by
          rintro rfl
          rw [node?_nil] at hnone
          cases hnone
        have hdir := hrest.directory next (node?_put_self t hne .directory)
        rw [hlater.directory next hdir]
        exact ih h made'
      · cases h

theorem makeDirectory_again {kept : List String → Prop} {path : String}
    (h : t.makeDirectory path = (.ok (), u)) (hlater : u.Preserves kept v) :
    v.makeDirectory path = (.ok (), v) := by
  have hkept := t.preserves_makeDirectory path
  rw [h] at hkept
  have hstart : v.start path = t.start path := by rw [start, hlater.home, hkept.home, start]
  rw [makeDirectory, hstart]
  exact makeFrom_again h hlater false

/-- A file may stand at the path: the path can be followed and does not lead to a directory. -/
def Free (t : FileTree) (path : String) : Prop :=
  ∃ place, t.locate path = .ok place ∧ t.node? place ≠ some .directory

theorem SameDirectories.free_iff (h : t.SameDirectories u) {path : String} :
    u.Free path ↔ t.Free path := by
  simp only [Free, h.locate_eq_ok, Ne, h.directory]

/-- A file can be written where one may stand. -/
theorem exists_writeFile {path name : String} (hpath : Path.EndsWith path name) (h : t.Free path)
    (content : ByteArray) : ∃ u, t.writeFile path content = .ok u := by
  obtain ⟨place, hplace, hnode⟩ := h
  -- the directory of the file is there, because the path leads through it
  obtain ⟨front, rfl, hfront⟩ := exists_parent hpath hplace
  refine ⟨t.put (front ++ [name]) (.file content), ?_⟩
  rw [writeFile, hplace]
  simp only [bind, Except.bind]
  split
  · next hdir => exact absurd hdir hnode
  · rfl
  · rw [List.dropLast_concat, hfront]
    rfl

theorem free_of_writeFile {path : String} {content : ByteArray}
    (h : t.writeFile path content = .ok u) : t.Free path := by
  obtain ⟨place, hplace, hnode, -⟩ := writeFile_eq_ok h
  exact ⟨place, hplace, hnode⟩

end

/-- The directory that the path leads to has something of this name. -/
def Holds (t : FileTree) (path name : String) : Prop :=
  ∃ place, t.locate path = .ok place ∧ t.node? place = some .directory ∧
    (t.node? (place ++ [name])).isSome

theorem isSome_node? {t : FileTree} {place : List String} (hplace : place ≠ []) :
    (t.node? place).isSome ↔ ∃ n, (place, n) ∈ t.entries := by
  rw [node?, if_neg (mt List.isEmpty_iff.mp hplace), Option.isSome_map, List.find?_isSome]
  constructor
  · rintro ⟨⟨other, n⟩, hmem, hother⟩
    have heq : other = place := by simpa using hother
    exact ⟨n, heq ▸ hmem⟩
  · rintro ⟨n, hmem⟩
    exact ⟨(place, n), hmem, by simp⟩

theorem list_eq_ok {t : FileTree} {path : String} {names : List String}
    (h : t.list path = .ok names) : ∃ place, t.locate path = .ok place ∧
      t.node? place = some .directory ∧
      names = ((t.entries.filterMap fun (p, _) =>
        if p.dropLast = place then p.getLast? else none).mergeSort
          fun a b => (compare a b).isLE).eraseDups := by
  rw [list] at h
  rcases hplace : t.locate path with fault | place
  · rw [hplace] at h
    cases h
  rw [hplace] at h
  simp only [bind, Except.bind] at h
  refine ⟨place, rfl, ?_⟩
  split at h
  · cases h
  · cases h
  · next hdir =>
    cases h
    exact ⟨hdir, rfl⟩

/-- A directory can be listed. -/
theorem exists_list {t : FileTree} {path : String} (h : t.isDirectory path = true) :
    ∃ names, t.list path = .ok names := by
  obtain ⟨place, hplace, hdir⟩ := isDirectory_iff.mp h
  rw [list, hplace]
  simp only [bind, Except.bind, hdir]
  exact ⟨_, rfl⟩

theorem dropLast_getLast?_iff {p place : List String} {name : String} :
    (if p.dropLast = place then p.getLast? else none) = some name ↔ p = place ++ [name] := by
  constructor
  · intro h
    split at h
    · next hfront =>
      obtain ⟨before, rfl⟩ := List.getLast?_eq_some_iff.mp h
      rw [← hfront, List.dropLast_concat]
    · cases h
  · rintro rfl
    rw [List.dropLast_concat, if_pos rfl, List.getLast?_concat]

/-- The listing of a directory has the names of what is in it. -/
theorem mem_list {t : FileTree} {path name : String} {names : List String}
    (h : t.list path = .ok names) : name ∈ names ↔ t.Holds path name := by
  obtain ⟨place, hplace, hdir, rfl⟩ := list_eq_ok h
  rw [List.mem_eraseDups, List.mem_mergeSort, List.mem_filterMap]
  constructor
  · rintro ⟨⟨p, n⟩, hmem, hp⟩
    obtain rfl := dropLast_getLast?_iff.mp hp
    refine ⟨place, hplace, hdir, ?_⟩
    exact (isSome_node? (List.concat_ne_nil _ _)).mpr ⟨n, hmem⟩
  · rintro ⟨other, hother, -, hsome⟩
    rw [hplace] at hother
    cases hother
    obtain ⟨n, hmem⟩ := (isSome_node? (List.concat_ne_nil _ _)).mp hsome
    exact ⟨(place ++ [name], n), hmem, dropLast_getLast?_iff.mpr rfl⟩

/-- The listing of a directory is in order, and has every name once. -/
theorem pairwise_list {t : FileTree} {path : String} {names : List String}
    (h : t.list path = .ok names) : names.Pairwise fun a b => compare a b = .lt := by
  obtain ⟨place, -, -, rfl⟩ := list_eq_ok h
  have hsorted (listed : List String) : (listed.mergeSort fun a b => (compare a b).isLE).Pairwise
      fun a b => (compare a b).isLE = true :=
    List.pairwise_mergeSort (fun _ _ _ => Std.TransCmp.isLE_trans) isLE_total listed
  -- what is left out does not change the order of the others
  apply (((hsorted _).sublist (eraseDups_sublist _)).and (nodup_eraseDups _)).imp
  exact fun ⟨hle, hne⟩ => compare_eq_lt hle hne

/-- The name, seen from a directory, is that of a file in the directory or below it. -/
def HasFileBelow (t : FileTree) (dir name : String) : Prop :=
  ∃ base place content, t.locate dir = .ok base ∧ t.node? base = some .directory ∧
    t.locate (Path.join dir name) = .ok place ∧ t.node? place = some (.file content) ∧ base <+: place

/-- Without two dots components lead downwards. -/
theorem prefix_of_follow {t : FileTree} {place p : List String} {cs : List String} (hdots : ".." ∉ cs)
    (h : t.follow place cs = .ok p) : place <+: p := by
  induction cs generalizing place with
  | nil =>
    cases h
    exact List.prefix_rfl
  | cons c cs ih =>
    rw [List.mem_cons, not_or] at hdots
    obtain ⟨hc, hcs⟩ := hdots
    have hstep : place <+: step place c := by
      rw [step]
      split
      · exact List.prefix_rfl
      · rw [if_neg (Ne.symm hc)]
        exact List.prefix_append _ _
    exact hstep.trans (ih hcs (follow_cons_eq_ok.mp h).2)

/-- The components of a path are followed before those of what is joined to it. -/
theorem locate_join_eq_ok {t : FileTree} {dir name last : String} {place : List String}
    (hrelative : Path.isAbsolute name = false) (hname : Path.EndsWith name last)
    (h : t.locate (Path.join dir name) = .ok place) :
    ∃ base, t.locate dir = .ok base ∧ t.node? base = some .directory ∧
      t.follow base (Path.components name) = .ok place := by
  have hroute : Path.route (Path.join dir name) = Path.components dir ++ Path.components name := by
    rw [Path.route, if_neg (hname.join dir).noSlash, List.append_nil, Path.components_join hrelative]
  have hstart : t.start (Path.join dir name) = t.start dir := by
    rw [start, start, Path.isAbsolute_join hrelative]
  rw [locate, hroute, hstart] at h
  obtain ⟨base, hbase, hrest⟩ := follow_append_eq_ok.mp h
  -- the name has a component, which is looked for in a directory
  have hdir : t.node? base = some .directory := by
    obtain ⟨c, cs, hcomponents⟩ := List.exists_cons_of_ne_nil hname.components_ne_nil
    rw [hcomponents] at hrest
    exact (follow_cons_eq_ok.mp hrest).1
  refine ⟨base, ?_, hdir, hrest⟩
  rw [locate, Path.route]
  split
  · exact follow_concat_eq_ok.mpr ⟨base, hbase, hdir, rfl⟩
  · rw [List.append_nil]
    exact hbase

/-- A relative name without two dots does not lead out of the directory. -/
theorem hasFileBelow_of_isFile {t : FileTree} {dir name last : String}
    (hrelative : Path.isAbsolute name = false) (hdots : ".." ∉ Path.components name)
    (hname : Path.EndsWith name last) (h : t.isFile (Path.join dir name) = true) :
    t.HasFileBelow dir name := by
  obtain ⟨content, hfind⟩ := exists_file_of_isFile h
  obtain ⟨place, hplace, hnode⟩ := find_eq_ok.mp hfind
  obtain ⟨base, hbase, hdir, hfollow⟩ := locate_join_eq_ok hrelative hname hplace
  exact ⟨base, place, content, hbase, hdir, hplace, hnode, prefix_of_follow hdots hfollow⟩

end FileTree

end SmallScheme
