import Mathlib.Data.List.Basic
import SmallScheme.FileTree

/-! What file operations leave as it was.

Every operation keeps the directories, so a path that could be followed leads to the same place
afterwards. Making directories keeps the files too, and writing a file keeps all others. Where a path
ends with a proper name, the place that it leads to has that name, whatever comes before it. -/
namespace SmallScheme

namespace Text
variable {cut : Char → Bool}

theorem pieces_ne_nil (cs : List Char) : pieces cut cs ≠ [] := by
  cases cs with
  | nil => exact List.cons_ne_nil _ _
  | cons c cs =>
    rw [pieces]
    split
    · exact List.cons_ne_nil _ _
    · split <;> exact List.cons_ne_nil _ _

theorem pieces_cons_uncut {c : Char} (hc : cut c = false) {cs piece : List Char}
    {rest : List (List Char)} (h : pieces cut cs = piece :: rest) :
    pieces cut (c :: cs) = (c :: piece) :: rest := by
  rw [pieces, hc, if_neg Bool.false_ne_true, h]

/-- A cut divides the pieces of a text. -/
theorem pieces_append_cut {c : Char} (hc : cut c = true) (cs ds : List Char) :
    pieces cut (cs ++ c :: ds) = pieces cut cs ++ pieces cut ds := by
  induction cs with
  | nil =>
    have hfirst : pieces cut (c :: ds) = [] :: pieces cut ds := by rw [pieces, if_pos hc]
    exact hfirst
  | cons b cs ih =>
    by_cases hb : cut b = true
    · rw [List.cons_append, pieces, if_pos hb, pieces, if_pos hb, ih]
      rfl
    · have hb' : cut b = false := Bool.eq_false_iff.mpr hb
      obtain ⟨piece, rest, hpieces⟩ := List.exists_cons_of_ne_nil (@pieces_ne_nil cut cs)
      rw [hpieces, List.cons_append] at ih
      rw [List.cons_append, pieces_cons_uncut hb' ih, pieces_cons_uncut hb' hpieces]
      rfl

/-- A text without cuts is one piece. -/
theorem pieces_uncut {cs : List Char} (h : ∀ c ∈ cs, cut c = false) : pieces cut cs = [cs] := by
  induction cs with
  | nil => rfl
  | cons c cs ih =>
    obtain ⟨hc, hcs⟩ := List.forall_mem_cons.mp h
    exact pieces_cons_uncut hc (ih hcs)

theorem not_cut_of_mem_pieces {cs piece : List Char} (h : piece ∈ pieces cut cs) :
    ∀ c ∈ piece, cut c = false := by
  induction cs generalizing piece with
  | nil =>
    rw [List.mem_singleton.mp h]
    exact fun c hc => absurd hc List.not_mem_nil
  | cons b cs ih =>
    by_cases hb : cut b = true
    · rw [pieces, if_pos hb] at h
      rcases List.mem_cons.mp h with rfl | h
      · exact fun c hc => absurd hc List.not_mem_nil
      · exact ih h
    · have hb' : cut b = false := Bool.eq_false_iff.mpr hb
      obtain ⟨first, rest, hpieces⟩ := List.exists_cons_of_ne_nil (@pieces_ne_nil cut cs)
      rw [pieces_cons_uncut hb' hpieces] at h
      rw [hpieces] at ih
      rcases List.mem_cons.mp h with rfl | h
      · exact List.forall_mem_cons.mpr ⟨hb', ih List.mem_cons_self⟩
      · exact ih (List.mem_cons_of_mem _ h)

/-- What is behind the last cut belongs to the last piece. -/
theorem exists_pieces_append {ds : List Char} (h : ∀ c ∈ ds, cut c = false) (cs : List Char) :
    ∃ front last, pieces cut (cs ++ ds) = front ++ [last ++ ds] := by
  induction cs with
  | nil => exact ⟨[], [], pieces_uncut h⟩
  | cons b cs ih =>
    obtain ⟨front, last, hpieces⟩ := ih
    by_cases hb : cut b = true
    · refine ⟨[] :: front, last, ?_⟩
      rw [List.cons_append, pieces, if_pos hb, hpieces]
      rfl
    · have hb' : cut b = false := Bool.eq_false_iff.mpr hb
      cases front with
      | nil => exact ⟨[], b :: last, pieces_cons_uncut hb' hpieces⟩
      | cons first front => exact ⟨(b :: first) :: front, last, pieces_cons_uncut hb' hpieces⟩

end Text

namespace Path

theorem components_slash (a b : String) : components (a ++ "/" ++ b) = components a ++ components b := by
  have hlist : (a ++ "/" ++ b).toList = a.toList ++ '/' :: b.toList := by
    rw [String.toList_append, String.toList_append, List.append_assoc]
    rfl
  unfold components
  rw [hlist, Text.pieces_append_cut (by decide), List.filter_append, List.map_append]

theorem slash_not_mem_components {path c : String} (h : c ∈ components path) : '/' ∉ c.toList := by
  obtain ⟨piece, hpiece, rfl⟩ := List.mem_map.mp h
  rw [String.toList_ofList]
  intro hmem
  have hcut := Text.not_cut_of_mem_pieces (List.mem_filter.mp hpiece).1 '/' hmem
  exact absurd hcut (by decide)

/-- Two paths are joined by one slash, unless the second is the whole path. -/
theorem join_cases (base name : String) :
    (isAbsolute name = true ∨ base = "") ∧ join base name = name ∨
      ∃ front, (base = front ∧ base ≠ "" ∨ base = front ++ "/") ∧
        join base name = front ++ "/" ++ name := by
  unfold join
  split
  · next hwhole => exact .inl ⟨by simpa using hwhole, rfl⟩
  · next hwhole =>
    right
    split
    · next hlast =>
      -- the slash is there already
      obtain ⟨front, hfront⟩ := List.getLast?_eq_some_iff.mp hlast
      have hbase : base = String.ofList front ++ "/" := by
        rw [← String.toList_inj, hfront, String.toList_append, String.toList_ofList]
        rfl
      exact ⟨String.ofList front, .inr hbase, by rw [← hbase]⟩
    · exact ⟨base, .inl ⟨rfl, by simp_all⟩, rfl⟩

/-- What is joined to a path stands at its end. -/
theorem suffix_join (base name : String) : name.toList <:+ (join base name).toList := by
  rcases join_cases base name with ⟨-, hjoin⟩ | ⟨front, -, hjoin⟩
  · exact ⟨[], by rw [hjoin, List.nil_append]⟩
  · rw [hjoin, String.toList_append]
    exact List.suffix_append _ _

theorem isAbsolute_join {base name : String} (h : isAbsolute name = false) :
    isAbsolute (join base name) = isAbsolute base := by
  have hslash (front rest : String) (hfront : front ≠ "") :
      isAbsolute (front ++ "/" ++ rest) = isAbsolute front := by
    have hne : front.toList ≠ [] := mt String.toList_eq_nil_iff.mp hfront
    rw [isAbsolute, isAbsolute, String.toList_append, String.toList_append, List.append_assoc,
      List.head?_append_of_ne_nil _ hne]
  rcases join_cases base name with ⟨habs | rfl, hjoin⟩ | ⟨front, ⟨rfl, hne⟩ | rfl, hjoin⟩
  · rw [h] at habs
    cases habs
  · rw [hjoin, h]
    rfl
  · rw [hjoin, hslash base name hne]
  · rw [hjoin]
    by_cases hfront : front = ""
    · rw [hfront]
      simp [isAbsolute]
    · have hempty := hslash front "" hfront
      rw [String.append_empty] at hempty
      rw [hslash front name hfront, hempty]

theorem components_join {base name : String} (h : isAbsolute name = false) :
    components (join base name) = components base ++ components name := by
  rcases join_cases base name with ⟨habs | rfl, hjoin⟩ | ⟨front, ⟨rfl, -⟩ | rfl, hjoin⟩
  · rw [h] at habs
    cases habs
  · rw [hjoin]
    rfl
  · rw [hjoin, components_slash]
  · have hempty := components_slash front ""
    rw [String.append_empty] at hempty
    rw [hjoin, components_slash, hempty, show components "" = [] from rfl, List.append_nil]

/-- The last piece of a path is its last component, unless it is empty. -/
theorem getLast_components {path : String} {front : List (List Char)} {last : List Char}
    (h : Text.pieces (· = '/') path.toList = front ++ [last]) (hne : last ≠ []) :
    (components path).getLast? = some (String.ofList last) := by
  have hkept : [last].filter (!·.isEmpty) = [last] := by
    rw [List.filter_cons_of_pos, List.filter_nil]
    simpa using hne
  rw [components, h, List.filter_append, hkept, List.map_append, List.map_singleton]
  exact List.getLast?_concat

/-- The path ends with the name of something in a directory: not with a slash, a dot or two dots. -/
structure EndsWith (path name : String) : Prop where
  last : (components path).getLast? = some name
  noSlash : path.toList.getLast? ≠ some '/'
  notDot : name ≠ "."
  notDots : name ≠ ".."

namespace EndsWith
variable {path name : String}

theorem fileName (h : EndsWith path name) : Path.fileName path = name := by
  rw [Path.fileName, h.last]
  rfl

theorem slash_not_mem (h : EndsWith path name) : '/' ∉ name.toList :=
  slash_not_mem_components (List.mem_of_getLast? h.last)

theorem components_ne_nil (h : EndsWith path name) : components path ≠ [] :=
  List.ne_nil_of_mem (List.mem_of_getLast? h.last)

theorem exists_route (h : EndsWith path name) : ∃ before, route path = before ++ [name] := by
  obtain ⟨before, hcomponents⟩ := List.getLast?_eq_some_iff.mp h.last
  exact ⟨before, by rw [route, if_neg h.noSlash, List.append_nil, hcomponents]⟩

/-- What comes before a path does not change how it ends. -/
theorem slash_append (h : EndsWith path name) (base : String) :
    EndsWith (base ++ "/" ++ path) name := by
  refine ⟨?_, ?_, h.notDot, h.notDots⟩
  · rw [components_slash, List.getLast?_append, h.last]
    rfl
  · have hne : path.toList ≠ [] := by
      intro hnil
      have hlast := h.last
      rw [components, hnil] at hlast
      cases hlast
    rw [String.toList_append, List.getLast?_append_of_ne_nil _ hne]
    exact h.noSlash

theorem join (h : EndsWith path name) (base : String) : EndsWith (join base path) name := by
  rcases join_cases base path with ⟨-, hjoin⟩ | ⟨front, -, hjoin⟩
  · rw [hjoin]
    exact h
  · rw [hjoin]
    exact h.slash_append front

/-- A path whose last piece is longer than two dots ends with it. -/
theorem of_pieces {front : List (List Char)} {last : List Char}
    (h : Text.pieces (· = '/') path.toList = front ++ [last]) (hlength : 2 < last.length) :
    EndsWith path (String.ofList last) := by
  have hne : last ≠ [] := by
    rintro rfl
    exact absurd hlength (by decide)
  have hshort (name : String) (hname : name.toList.length ≤ 2) : String.ofList last ≠ name := by
    rintro rfl
    rw [String.toList_ofList] at hname
    omega
  refine ⟨getLast_components h hne, ?_, hshort "." (by decide), hshort ".." (by decide)⟩
  -- after a slash at the end there would be an empty piece
  intro hslash
  obtain ⟨before, hbefore⟩ := List.getLast?_eq_some_iff.mp hslash
  rw [hbefore, Text.pieces_append_cut (by decide)] at h
  have hempty : [] = last := (List.append_singleton_inj.mp h).2
  exact hne hempty.symm

theorem ne_slash_of_not_mem {cs : List Char} (h : '/' ∉ cs) : ∀ c ∈ cs, decide (c = '/') = false :=
  fun _ hc => decide_eq_false (ne_of_mem_of_not_mem hc h)

/-- A path with a proper ending ends with a name that has the same ending. -/
theorem exists_of_suffix {ending : List Char} (hslash : '/' ∉ ending) (hlength : 2 < ending.length)
    (h : ending <:+ path.toList) : ∃ name, EndsWith path name ∧ ending <:+ name.toList := by
  obtain ⟨before, hpath⟩ := h
  obtain ⟨front, last, hpieces⟩ := Text.exists_pieces_append (ne_slash_of_not_mem hslash) before
  rw [hpath] at hpieces
  have hlong : 2 < (last ++ ending).length := by
    rw [List.length_append]
    omega
  refine ⟨String.ofList (last ++ ending), of_pieces hpieces hlong, last, ?_⟩
  rw [String.toList_ofList]

/-- A name without slashes is a path that ends with it. -/
theorem of_name (hslash : '/' ∉ name.toList) (hlength : 2 < name.toList.length) :
    EndsWith name name := by
  have hpieces := Text.pieces_uncut (ne_slash_of_not_mem hslash)
  have h := @of_pieces name [] _ hpieces hlength
  rwa [String.ofList_toList] at h

end EndsWith

end Path

namespace FileTree

theorem node?_nil (t : FileTree) : t.node? [] = some .directory := rfl

theorem node?_put_self (t : FileTree) {place : List String} (hplace : place ≠ []) (n : FileNode) :
    (t.put place n).node? place = some n := by
  rw [node?, if_neg (mt List.isEmpty_iff.mp hplace), put, List.find?_cons_of_pos (by simp)]
  rfl

theorem node?_put_of_ne (t : FileTree) {place other : List String} (h : other ≠ place)
    (n : FileNode) : (t.put place n).node? other = t.node? other := by
  unfold node? put
  rw [List.find?_cons_of_neg]
  simpa using h.symm

/-- The content of a file is in one of the entries. -/
theorem mem_of_content? {t : FileTree} {place : List String} {content : ByteArray}
    (h : t.content? place = some content) : (place, .file content) ∈ t.entries := by
  have hnode : t.node? place = some (.file content) := by
    rw [content?] at h
    split at h
    · next hfile =>
      cases h
      exact hfile
    · cases h
  rw [node?] at hnode
  split at hnode
  · cases hnode
  · obtain ⟨⟨other, n⟩, hfind, hn⟩ := Option.map_eq_some_iff.mp hnode
    have hother : other = place := by simpa using List.find?_some hfind
    have hn' : n = .file content := hn
    rw [← hother, ← hn']
    exact List.mem_of_find?_eq_some hfind

/-- Components are followed as long as they start from a directory. -/
theorem follow_cons_eq_ok {t : FileTree} {place p : List String} {c : String} {cs : List String} :
    t.follow place (c :: cs) = .ok p ↔
      t.node? place = some .directory ∧ t.follow (step place c) cs = .ok p := by
  rw [follow, descend]
  rcases t.node? place with _ | _ | _
  · exact ⟨nofun, nofun⟩
  · exact ⟨nofun, nofun⟩
  · exact ⟨fun h => ⟨rfl, h⟩, fun h => h.2⟩

theorem find_eq_ok {t : FileTree} {path : String} {n : FileNode} :
    t.find path = .ok n ↔ ∃ place, t.locate path = .ok place ∧ t.node? place = some n := by
  rw [find]
  rcases t.locate path with fault | place
  · exact ⟨nofun, nofun⟩
  · constructor
    · intro h
      refine ⟨place, rfl, ?_⟩
      rcases hn : t.node? place with _ | m
      · simp only [bind, Except.bind, hn] at h
        cases h
      · simp only [bind, Except.bind, hn] at h
        cases h
        rfl
    · rintro ⟨place', hplace, hn⟩
      cases hplace
      simp only [bind, Except.bind, hn]
      rfl

theorem getLast_follow {t : FileTree} {place p : List String} {cs : List String} {name : String}
    (hdot : name ≠ ".") (hdots : name ≠ "..") (h : t.follow place (cs ++ [name]) = .ok p) :
    p.getLast? = some name := by
  induction cs generalizing place with
  | nil =>
    obtain ⟨-, hlast⟩ := follow_cons_eq_ok.mp h
    have hstep : step place name = place ++ [name] := by rw [step, if_neg hdot, if_neg hdots]
    cases hlast
    rw [hstep]
    exact List.getLast?_concat
  | cons c cs ih => exact ih (follow_cons_eq_ok.mp h).2

/-- A path that ends with a name leads to a place of that name. -/
theorem getLast_locate {t : FileTree} {path name : String} {place : List String}
    (hpath : Path.EndsWith path name) (h : t.locate path = .ok place) : place.getLast? = some name := by
  obtain ⟨before, hroute⟩ := hpath.exists_route
  rw [locate, hroute] at h
  exact getLast_follow hpath.notDot hpath.notDots h

/-- The directories of a tree are also in a later one, and so are its files at the kept places. -/
structure Preserves (kept : List String → Prop) (t later : FileTree) : Prop where
  home : later.home = t.home
  directory : ∀ place, t.node? place = some .directory → later.node? place = some .directory
  file : ∀ place content, kept place → t.node? place = some (.file content) →
    later.node? place = some (.file content)

namespace Preserves
variable {kept : List String → Prop} {t u v : FileTree}

theorem refl (kept : List String → Prop) (t : FileTree) : t.Preserves kept t :=
  ⟨rfl, fun _ h => h, fun _ _ _ h => h⟩

theorem trans (h : t.Preserves kept u) (h' : u.Preserves kept v) : t.Preserves kept v where
  home := h'.home.trans h.home
  directory place hplace := h'.directory place (h.directory place hplace)
  file place content hkept hplace :=
    h'.file place content hkept (h.file place content hkept hplace)

theorem mono {fewer : List String → Prop} (h : t.Preserves kept u)
    (hfewer : ∀ place, fewer place → kept place) : t.Preserves fewer u :=
  { h with file := fun place content hplace => h.file place content (hfewer place hplace) }

theorem follow (h : t.Preserves kept u) {place p : List String} {cs : List String}
    (hp : t.follow place cs = .ok p) : u.follow place cs = .ok p := by
  induction cs generalizing place with
  | nil => exact hp
  | cons c cs ih =>
    obtain ⟨hdir, hrest⟩ := follow_cons_eq_ok.mp hp
    exact follow_cons_eq_ok.mpr ⟨h.directory place hdir, ih hrest⟩

/-- A path that can be followed goes on to lead to the same place. -/
theorem locate (h : t.Preserves kept u) {path : String} {place : List String}
    (hplace : t.locate path = .ok place) : u.locate path = .ok place := by
  have hstart : u.start path = t.start path := by rw [start, h.home, start]
  rw [FileTree.locate, hstart]
  exact h.follow hplace

theorem find_file (h : t.Preserves kept u) {path : String} {content : ByteArray}
    (hkept : ∀ place, t.locate path = .ok place → kept place)
    (hfile : t.find path = .ok (.file content)) : u.find path = .ok (.file content) := by
  obtain ⟨place, hplace, hnode⟩ := find_eq_ok.mp hfile
  exact find_eq_ok.mpr ⟨place, h.locate hplace, h.file place content (hkept place hplace) hnode⟩

end Preserves

section
variable {t : FileTree}

/-- Only a file that is in the place is lost. -/
theorem preserves_put {place : List String} (h : t.node? place ≠ some .directory) (n : FileNode) :
    t.Preserves (· ≠ place) (t.put place n) where
  home := rfl
  directory other hother := by
    have hne : other ≠ place := by
      rintro rfl
      exact h hother
    rw [node?_put_of_ne t hne]
    exact hother
  file other content hne hother := by
    rw [node?_put_of_ne t hne]
    exact hother

/-- Nothing is lost where there was nothing. -/
theorem preserves_put_new {place : List String} (h : t.node? place = none) (n : FileNode) :
    t.Preserves (fun _ => True) (t.put place n) := by
  have hput : t.Preserves (· ≠ place) (t.put place n) := by
    apply preserves_put
    rw [h]
    nofun
  refine { hput with file := fun other content _ hother => hput.file other content ?_ hother }
  rintro rfl
  rw [h] at hother
  cases hother

theorem preserves_makeFrom (t : FileTree) (makesLast made : Bool) (place cs : List String) :
    t.Preserves (fun _ => True) (t.makeFrom makesLast made place cs).2 := by
  induction cs generalizing t made place with
  | nil => exact .refl _ t
  | cons c cs ih =>
    rw [makeFrom]
    rcases t.descend place c with fault | next
    · exact .refl _ t
    · dsimp only
      split
      · exact ih t made next
      · exact .refl _ t
      · next hnone =>
        split
        · exact (preserves_put_new hnone _).trans (ih _ true next)
        · exact .refl _ t

/-- Making directories loses nothing, even if it fails. -/
theorem preserves_makeDirectory (t : FileTree) (path : String) :
    t.Preserves (fun _ => True) (t.makeDirectory path).2 := preserves_makeFrom t _ _ _ _

/-- A file is written to the place that its path leads to, where there is no directory. -/
theorem writeFile_eq_ok {path : String} {content : ByteArray} {u : FileTree}
    (h : t.writeFile path content = .ok u) : ∃ place, t.locate path = .ok place ∧
      t.node? place ≠ some .directory ∧ u = t.put place (.file content) := by
  rw [writeFile] at h
  rcases hplace : t.locate path with fault | place
  · rw [hplace] at h
    cases h
  · rw [hplace] at h
    refine ⟨place, rfl, ?_⟩
    simp only [bind, Except.bind] at h
    split at h
    · cases h
    · next hnode =>
      cases h
      rw [hnode]
      exact ⟨nofun, rfl⟩
    · next hnode =>
      rw [hnode]
      split at h
      · cases h
        exact ⟨nofun, rfl⟩
      · cases h
      · cases h

/-- What was written to a path is found there. -/
theorem find_writeFile {path : String} {content : ByteArray} {u : FileTree}
    (h : t.writeFile path content = .ok u) : u.find path = .ok (.file content) := by
  obtain ⟨place, hplace, hnode, rfl⟩ := writeFile_eq_ok h
  have hne : place ≠ [] := by
    rintro rfl
    exact hnode (node?_nil t)
  exact find_eq_ok.mpr ⟨place, (preserves_put hnode _).locate hplace, node?_put_self t hne _⟩

/-- Writing a file under a name keeps all files of other names. -/
theorem preserves_writeFile {path name : String} {content : ByteArray} {u : FileTree}
    (hpath : Path.EndsWith path name) (h : t.writeFile path content = .ok u) :
    t.Preserves (fun place => place.getLast? ≠ some name) u := by
  obtain ⟨place, hplace, hnode, rfl⟩ := writeFile_eq_ok h
  refine (preserves_put hnode _).mono ?_
  rintro other hother rfl
  exact hother (getLast_locate hpath hplace)

/-- A file that holds a text is read as this text. -/
theorem readText_of_find {path text : String} (h : t.find path = .ok (.file text.toUTF8)) :
    t.readText path = .ok text := by
  have hvalid : String.fromUTF8? text.toUTF8 = some text := dif_pos text.isValidUTF8
  rw [readText, h]
  simp only [bind, Except.bind, hvalid]
  rfl

theorem exists_file_of_isFile {path : String} (h : t.isFile path = true) :
    ∃ content, t.find path = .ok (.file content) := by
  rw [isFile] at h
  split at h
  · next content hcontent => exact ⟨content, hcontent⟩
  · cases h

theorem isFile_of_readText {path text : String} (h : t.readText path = .ok text) :
    t.isFile path = true := by
  rw [readText] at h
  rw [isFile]
  rcases hfind : t.find path with fault | content | _
  · rw [hfind] at h
    cases h
  · rfl
  · rw [hfind] at h
    cases h

/-- A file that is kept is read as before. -/
theorem Preserves.readText {kept : List String → Prop} {u : FileTree} (h : t.Preserves kept u)
    {path : String} (hfile : t.isFile path = true)
    (hkept : ∀ place, t.locate path = .ok place → kept place) :
    u.readText path = t.readText path := by
  obtain ⟨content, hcontent⟩ := exists_file_of_isFile hfile
  rw [FileTree.readText, h.find_file hkept hcontent, FileTree.readText, hcontent]

end

end FileTree

end SmallScheme
