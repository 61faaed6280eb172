import CommentMarkers.Proofs.Results
import CommentMarkers.Workspace.FileTree
import Mathlib.Data.List.Sort
import Mathlib.Data.String.Basic

/-!
# Names and files

A directory lists the names of what is in it, each once and in order, and the name behind the path
of the directory leads to what it names.  Files may be deleted from a tree; the directories that
they were in stay.  Then the other files are still read by the same paths, and each directory lists
what it did before, but for the deleted files.

Main results:

- Theorem `Text.Path.components_join`: the components of a path below another one.
- Theorem `FileTree.locate_join`: a listed name leads to what it names.
- Theorem `FileTree.pairwise_list`: a directory lists its names in order.
- Theorem `FileTree.list_withoutFiles`: what is listed when files are deleted.
- Theorem `FileTree.read_withoutFiles`: what is read when files are deleted.
-/

namespace CommentMarkers

/-! ## Names in order -/

/-- A list without its repeated items has each item once. -/
theorem nodup_eraseDups (names : List String) : names.eraseDups.Nodup := by
  induction hlength : names.length using Nat.strong_induction_on generalizing names with
  | _ count ih =>
      cases names with
      | nil => exact List.nodup_nil
      | cons first rest =>
          rw [List.eraseDups_cons, List.nodup_cons]
          have hshorter : (rest.filter fun other => !other == first).length < count := by
            rw [← hlength]
            exact Nat.lt_succ_of_le (List.length_filter_le _ _)
          refine ⟨fun hmem => ?_, ih _ hshorter _ rfl⟩
          rw [List.mem_eraseDups, List.mem_filter] at hmem
          simp at hmem

/-- Names that are sorted stand in strict order if each occurs once. -/
theorem pairwise_mergeSort_of_nodup_names {names : List String} (hnodup : names.Nodup) :
    (names.mergeSort fun first second => first ≤ second).Pairwise (· < ·) := by
  refine List.Pairwise.imp₂ (fun _ _ hle hne => lt_of_le_of_ne (of_decide_eq_true hle) hne)
    (List.pairwise_mergeSort ?_ ?_ _) (List.nodup_mergeSort.2 hnodup)
  · intro first second third hfirst hsecond
    exact decide_eq_true (le_trans (of_decide_eq_true hfirst) (of_decide_eq_true hsecond))
  · intro first second
    simpa using le_total first second

/-! ## Components of paths -/

namespace Text.Path

/-- Holds of a component that names something in a directory. -/
structure IsName (name : String) : Prop where
  nonempty : name ≠ ""
  not_here : name ≠ "."
  not_above : name ≠ ".."
  whole : '/' ∉ name.toList

/-- The pieces of a text between occurrences of a character do not contain it. -/
theorem not_mem_of_mem_splitOn {char : Char} {text piece : List Char}
    (hpiece : piece ∈ text.splitOn char) : char ∉ piece := by
  induction text generalizing piece with
  | nil =>
      rw [List.splitOn_nil, List.mem_singleton] at hpiece
      rw [hpiece]
      exact List.not_mem_nil
  | cons first rest ih =>
      rw [List.splitOn_cons_eq_if_modifyHead] at hpiece
      split at hpiece
      · rcases List.mem_cons.1 hpiece with rfl | hrest
        · exact List.not_mem_nil
        · exact ih hrest
      · rename_i hne
        cases hpieces : rest.splitOn char with
        | nil => exact absurd hpieces (List.splitOn_ne_nil _ _)
        | cons head tail =>
            rw [hpieces] at ih hpiece
            rcases List.mem_cons.1 hpiece with rfl | htail
            · rw [List.mem_cons, not_or]
              exact ⟨fun hsame => hne (by rw [hsame, beq_self_eq_true]), ih List.mem_cons_self⟩
            · exact ih (List.mem_cons_of_mem _ htail)

/-- The components of a path are in one piece. -/
theorem slash_not_mem_of_mem_components {path component : String}
    (hcomponent : component ∈ components path) : '/' ∉ component.toList := by
  obtain ⟨piece, hpiece, rfl⟩ := List.mem_map.1 (List.mem_filter.1 hcomponent).1
  rw [String.toList_ofList]
  exact not_mem_of_mem_splitOn hpiece

/-- The components of two paths with a slash between them. -/
theorem components_append (first second : String) :
    components (first ++ "/" ++ second) = components first ++ components second := by
  have hsplit : (first ++ "/" ++ second).toList = first.toList ++ '/' :: second.toList := by
    simp
  rw [components, pieces, hsplit, List.splitOn_append_cons_self, List.map_append,
    List.filter_append]
  rfl

/-- Components that are put together with slashes are found again. -/
theorem components_intercalate {parts : List String}
    (hparts : ∀ part ∈ parts, part ≠ "" ∧ part ≠ "." ∧ '/' ∉ part.toList) :
    components ("/".intercalate parts) = parts := by
  cases hempty : parts with
  | nil => rfl
  | cons first rest =>
      rw [← hempty]
      have hne : parts.map String.toList ≠ [] := by
        rw [hempty]
        exact List.cons_ne_nil _ _
      have hpieces : pieces ("/".intercalate parts) = parts.map String.toList := by
        rw [pieces, String.toList_intercalate]
        refine List.splitOn_intercalate '/' (fun piece hpiece => ?_) hne
        obtain ⟨part, hpart, rfl⟩ := List.mem_map.1 hpiece
        exact (hparts part hpart).2.2
      rw [components, hpieces, List.map_map]
      have hsame : parts.map (String.ofList ∘ String.toList) = parts := by
        simp [Function.comp_def]
      rw [hsame, List.filter_eq_self]
      intro part hpart
      simpa using ⟨(hparts part hpart).1, (hparts part hpart).2.1⟩

/-- The normal form of a relative path has the components of the path. -/
theorem components_normal {path : String} (hrelative : isAbsolute path = false) :
    components (normal path) = components path := by
  have hinner : components ("/".intercalate (components path)) = components path :=
    components_intercalate fun part hpart =>
      ⟨(components_ne hpart).1, (components_ne hpart).2, slash_not_mem_of_mem_components hpart⟩
  rw [normal, hrelative, if_neg Bool.false_ne_true]
  split
  · rename_i hempty
    rw [hempty] at hinner
    rw [← hinner]
    decide
  · exact hinner

/-- The normal form of a relative path is relative. -/
theorem isAbsolute_normal {path : String} (hrelative : isAbsolute path = false) :
    isAbsolute (normal path) = false := by
  rw [normal, hrelative, if_neg Bool.false_ne_true]
  split
  · decide
  · cases hparts : components path with
    | nil => decide
    | cons first rest =>
        have hfirst : first ∈ components path := by
          rw [hparts]
          exact List.mem_cons_self
        have hslash := slash_not_mem_of_mem_components hfirst
        have hne : first.toList ≠ [] := by
          rw [ne_eq, String.toList_eq_nil_iff]
          exact (components_ne hfirst).1
        obtain ⟨char, more, hchars⟩ := List.exists_cons_of_ne_nil hne
        rw [hchars, List.mem_cons, not_or] at hslash
        have hhead : ("/".intercalate (first :: rest)).toList.head? = some char := by
          rw [String.toList_intercalate, List.map_cons, hchars]
          cases rest with
          | nil => simp
          | cons second others => simp [List.intercalate_cons_cons]
        rw [isAbsolute, hhead, beq_eq_false_iff_ne, ne_eq, Option.some.injEq]
        exact fun hsame => hslash.1 hsame.symm

/-- A name is its only component, and is relative. -/
theorem IsName.components_eq {name : String} (hname : IsName name) :
    components name = [name] ∧ isAbsolute name = false := by
  constructor
  · have hparts : ∀ part ∈ [name], part ≠ "" ∧ part ≠ "." ∧ '/' ∉ part.toList := by
      simpa using ⟨hname.nonempty, hname.not_here, hname.whole⟩
    have hsame := components_intercalate hparts
    rwa [String.intercalate_singleton] at hsame
  · rw [isAbsolute, beq_eq_false_iff_ne]
    exact fun hhead => hname.whole (List.mem_of_mem_head? hhead)

/-- What is left of a path when each `..` has taken a component away are names. -/
theorem isName_of_mem_resolved {path component : String} (hcomponent : component ∈ resolved path) :
    IsName component := by
  have hfold : ∀ (parts place : List String), (∀ part ∈ parts, part ∈ components path) →
      (∀ part ∈ place, IsName part) →
      ∀ part ∈ parts.foldl (fun place component =>
        if component = ".." then place.dropLast else place ++ [component]) place,
        IsName part := by
    intro parts place hparts hplace
    induction parts generalizing place with
    | nil => exact hplace
    | cons first rest ih =>
        obtain ⟨hfirst, hrest⟩ := List.forall_mem_cons.1 hparts
        refine ih _ hrest fun part hpart => ?_
        dsimp only at hpart
        split at hpart
        · exact hplace part ((List.dropLast_sublist _).subset hpart)
        · rename_i habove
          rcases List.mem_append.1 hpart with hpart | hpart
          · exact hplace part hpart
          · rw [List.mem_singleton.1 hpart]
            exact ⟨(components_ne hfirst).1, (components_ne hfirst).2, habove,
              slash_not_mem_of_mem_components hfirst⟩
  exact hfold _ [] (fun _ hpart => hpart) nofun component hcomponent

/-- The components of a path below another one. -/
theorem components_join {directory name : String} (hrelative : isAbsolute directory = false)
    (hname : IsName name) :
    components (join directory name) = components directory ++ [name] ∧
      isAbsolute (join directory name) = false := by
  obtain ⟨hcomponents, hnameRelative⟩ := hname.components_eq
  rw [join]
  split
  · rename_i hempty
    rw [components_normal hnameRelative, isAbsolute_normal hnameRelative, hcomponents, hempty]
    exact ⟨rfl, rfl⟩
  · rename_i hne
    have hwhole : isAbsolute (directory ++ "/" ++ name) = false := by
      have hchars : directory.toList ≠ [] := by
        rwa [ne_eq, String.toList_eq_nil_iff]
      rw [isAbsolute, String.toList_append, String.toList_append, List.append_assoc,
        List.head?_append_of_ne_nil _ hchars]
      exact hrelative
    rw [components_normal hwhole, isAbsolute_normal hwhole, components_append, hcomponents]
    exact ⟨rfl, rfl⟩

end Text.Path

namespace FileTree

variable {tree : FileTree} {place directory : Location} {name path : String}

/-! ## Names in directories -/

/-- The names in a directory stand in order. -/
theorem pairwise_names (tree : FileTree) (directory : Location) :
    (tree.names directory).Pairwise (· < ·) :=
  pairwise_mergeSort_of_nodup_names (nodup_eraseDups _)

/-- The locations of the files and directories that are there by themselves. -/
def places (tree : FileTree) : List Location :=
  tree.files.map (·.1) ++ tree.directories

/-- A directory lists the names of what it leads to. -/
theorem mem_names_iff :
    name ∈ tree.names directory ↔ ∃ place ∈ tree.places, directory ++ [name] <+: place := by
  unfold names
  rw [List.mem_mergeSort, List.mem_eraseDups, List.mem_filterMap]
  refine exists_congr fun place => and_congr_right fun _ => ?_
  split
  · rename_i hbelow
    obtain ⟨more, rfl⟩ := List.isPrefixOf_iff_prefix.1 hbelow
    rw [List.drop_left, List.prefix_append_right_inj]
    cases more with
    | nil => simp
    | cons first rest => simp [eq_comm]
  · rename_i hapart
    refine iff_of_false nofun fun hwithin => hapart ?_
    exact List.isPrefixOf_iff_prefix.2 ((List.prefix_append _ _).trans hwithin)

/-- Holds of a tree whose locations consist of names. -/
def HasNames (tree : FileTree) : Prop :=
  ∀ place ∈ tree.places, ∀ component ∈ place, Text.Path.IsName component

/-- The tree without files consists of names. -/
theorem hasNames_empty : empty.HasNames :=
  nofun

/-- What is written to consists of names. -/
theorem HasNames.write (hnames : tree.HasNames) (path : String) (contents : Bytes) :
    (tree.write path contents).HasNames := by
  intro place hplace
  rcases List.mem_append.1 hplace with hfile | hdirectory
  · obtain ⟨⟨other, found⟩, hentry, rfl⟩ := List.mem_map.1 hfile
    rcases List.mem_cons.1 hentry with hnew | hold
    · cases hnew
      exact fun component => Text.Path.isName_of_mem_resolved
    · exact hnames other (List.mem_append_left _ (List.mem_map_of_mem (List.mem_filter.1 hold).1))
  · exact hnames place (List.mem_append_right _ hdirectory)

/-- The directories that are made consist of names. -/
theorem HasNames.makeDirectory (hnames : tree.HasNames) (path : String) :
    (tree.makeDirectory path).HasNames := by
  intro place hplace
  rcases List.mem_append.1 hplace with hfile | hdirectory
  · exact hnames place (List.mem_append_left _ hfile)
  · rcases List.mem_cons.1 hdirectory with rfl | hold
    · exact fun component => Text.Path.isName_of_mem_resolved
    · exact hnames place (List.mem_append_right _ hold)

/-- What a directory lists are names, if all locations consist of names. -/
theorem HasNames.isName (hnames : tree.HasNames) (hname : name ∈ tree.names directory) :
    Text.Path.IsName name := by
  obtain ⟨place, hplace, hwithin⟩ := mem_names_iff.1 hname
  exact hnames place hplace name (hwithin.subset (by simp))

/-- What stands in front of something is a directory. -/
theorem isDirectory_iff :
    tree.isDirectory place = true ↔ place = [] ∨ (∃ other ∈ tree.directories, place <+: other) ∨
      ∃ other ∈ tree.files.map (·.1), place <+: other ∧ place ≠ other := by
  simp [isDirectory, or_assoc]

/-- Paths that go on with a name lead on from where they led. -/
theorem follow_concat (hname : name ≠ "..") (start : Location) (components : List String)
    (hfollow : tree.follow start components = .ok directory)
    (hdirectory : tree.isDirectory directory = true) :
    tree.follow start (components ++ [name]) = .ok (directory ++ [name]) := by
  induction components generalizing start with
  | nil =>
      cases hfollow
      rw [List.nil_append, follow, if_pos hdirectory, if_neg hname, follow]
  | cons component rest ih =>
      rw [follow] at hfollow
      rw [List.cons_append, follow]
      split at hfollow
      · rename_i hstart
        rw [if_pos hstart]
        split at hfollow
        · rename_i habove
          rw [if_pos habove]
          exact ih _ hfollow
        · rename_i hbelow
          rw [if_neg hbelow]
          exact ih _ hfollow
      · cases hfollow

/-- A path leads to a location exactly if it is relative and its components lead there. -/
theorem locate_eq_ok_iff :
    tree.locate path = .ok place ↔
      Text.Path.isAbsolute path = false ∧
        tree.follow [] (Text.Path.components path) = .ok place := by
  rw [locate]
  split
  · rename_i habsolute
    rw [habsolute]
    exact iff_of_false nofun fun hboth => Bool.noConfusion hboth.1
  · rename_i hrelative
    rw [Bool.not_eq_true] at hrelative
    cases tree.follow [] (Text.Path.components path) with
    | error blocked => exact iff_of_false nofun fun hboth => nomatch hboth.2
    | ok found =>
        rw [and_iff_right hrelative, Except.mapError, Except.ok.injEq, Except.ok.injEq]

/-- A name leads to what it names in a directory. -/
theorem locate_join (hname : Text.Path.IsName name) (hlocate : tree.locate path = .ok directory)
    (hdirectory : tree.isDirectory directory = true) :
    tree.locate (Text.Path.join path name) = .ok (directory ++ [name]) := by
  obtain ⟨hrelative, hfollow⟩ := locate_eq_ok_iff.1 hlocate
  obtain ⟨hcomponents, hjoined⟩ := Text.Path.components_join hrelative hname
  rw [locate_eq_ok_iff, hcomponents]
  exact ⟨hjoined, follow_concat hname.not_above [] _ hfollow hdirectory⟩

/-- What a path lists are the names in the directory that it leads to. -/
theorem mem_list_iff :
    name ∈ tree.list path ↔ ∃ directory, tree.locate path = .ok directory ∧
      tree.isDirectory directory = true ∧ name ∈ tree.names directory := by
  rw [list]
  cases tree.locate path with
  | error fault => simp
  | ok directory =>
      dsimp only
      split
      · rename_i hdirectory
        simp [hdirectory]
      · rename_i hfile
        simp [hfile]

/-- What a path lists stands in order. -/
theorem pairwise_list (tree : FileTree) (path : String) : (tree.list path).Pairwise (· < ·) := by
  rw [list]
  split
  · split
    · exact tree.pairwise_names _
    · exact List.Pairwise.nil
  · exact List.Pairwise.nil

/-- What a path lists, if the names that are found in the directory stand in order. -/
theorem list_eq_of_found {names : List String} (directory : Location)
    (hlocate : tree.locate path = .ok directory) (hdirectory : tree.isDirectory directory = true)
    (hfound : (tree.places.filterMap fun place =>
      if directory.isPrefixOf place then (place.drop directory.length).head?
      else none).eraseDups = names)
    (hsorted : names.Pairwise fun first second => decide (first ≤ second) = true) :
    tree.list path = names := by
  rw [← hfound] at hsorted ⊢
  rw [list, hlocate]
  dsimp only
  rw [if_pos hdirectory]
  exact List.mergeSort_of_pairwise hsorted

/-! ## Deleted files -/

/-- The tree without some files.  The directories that they were in stay. -/
def withoutFiles (tree : FileTree) (gone : List Location) : FileTree where
  files := tree.files.filter fun (place, _) => !gone.contains place
  directories := gone.map List.dropLast ++ tree.directories

/-- Holds of the locations of files. -/
def IsFile (tree : FileTree) (place : Location) : Prop :=
  tree.isDirectory place = false ∧ ∃ contents, tree.file? place = some contents

/-- In front of the last component of a location stands what is in front of the location. -/
theorem prefix_dropLast_iff {front whole : Location} (hne : whole ≠ []) :
    front <+: whole.dropLast ↔ front <+: whole ∧ front ≠ whole := by
  obtain ⟨init, last, rfl⟩ := (List.eq_nil_or_concat' whole).resolve_left hne
  rw [List.dropLast_concat, List.prefix_concat_iff]
  constructor
  · intro hfront
    refine ⟨Or.inr hfront, ?_⟩
    rintro rfl
    have hlength := hfront.length_le
    simp at hlength
  · rintro ⟨hwhole | hfront, hshort⟩
    · exact absurd hwhole hshort
    · exact hfront

/-- A file is among the locations that are there by themselves, and the root is none. -/
theorem IsFile.mem (hfile : tree.IsFile place) : place ∈ tree.files.map (·.1) ∧ place ≠ [] := by
  obtain ⟨hdirectory, contents, hcontents⟩ := hfile
  constructor
  · obtain ⟨front, back, hfiles, -⟩ := List.lookup_eq_some_iff.1 hcontents
    rw [hfiles]
    simp
  · rintro rfl
    cases hdirectory

/-- Nothing lies below a file. -/
theorem IsFile.eq_of_below {other : Location} (hfile : tree.IsFile place)
    (hother : other ∈ tree.places) (hwithin : place <+: other) :
    place = other ∧ other ∈ tree.files.map (·.1) := by
  have hdirectory := hfile.1
  rw [Bool.eq_false_iff, ne_eq, isDirectory_iff, not_or, not_or] at hdirectory
  obtain ⟨-, hdirectories, hfiles⟩ := hdirectory
  rcases List.mem_append.1 hother with hmem | hmem
  · refine ⟨by_contra fun hne => hfiles ⟨other, hmem, hwithin, hne⟩, hmem⟩
  · exact absurd ⟨other, hmem, hwithin⟩ hdirectories

section Deleting

variable {gone : List Location} (hgone : ∀ place ∈ gone, tree.IsFile place)

/-- A file that is not deleted keeps its contents. -/
theorem file?_withoutFiles (hkept : place ∉ gone) :
    (tree.withoutFiles gone).file? place = tree.file? place := by
  unfold file? withoutFiles
  dsimp only
  induction tree.files with
  | nil => rfl
  | cons entry rest ih =>
      obtain ⟨other, contents⟩ := entry
      rw [List.filter_cons]
      split
      · rw [List.lookup_cons, List.lookup_cons, ih]
      · rename_i hdeleted
        have hne : (place == other) = false := by
          rw [beq_eq_false_iff_ne]
          rintro rfl
          simp [hkept] at hdeleted
        rw [List.lookup_cons, hne, ih]

include hgone in
/-- What stands in front of something stays a directory, and nothing else becomes one. -/
theorem isDirectory_withoutFiles (place : Location) :
    (tree.withoutFiles gone).isDirectory place = tree.isDirectory place := by
  rw [Bool.eq_iff_iff, isDirectory_iff, isDirectory_iff]
  refine or_congr_right ?_
  have hmem : ∀ other, other ∈ (tree.withoutFiles gone).files.map (·.1) ↔
      other ∈ tree.files.map (·.1) ∧ other ∉ gone := by
    intro other
    simp [withoutFiles]
  have hdirectories : (∃ other ∈ (tree.withoutFiles gone).directories, place <+: other) ↔
      (∃ other ∈ gone, place <+: other ∧ place ≠ other) ∨
        ∃ other ∈ tree.directories, place <+: other := by
    simp only [withoutFiles, List.mem_append, or_and_right, exists_or, List.mem_map,
      exists_exists_and_eq_and]
    refine or_congr_left (exists_congr fun other => and_congr_right fun hother => ?_)
    exact prefix_dropLast_iff (hgone other hother).mem.2
  rw [hdirectories]
  simp only [hmem]
  constructor
  · rintro ((⟨other, hother, hbelow⟩ | hdirectory) | ⟨other, hother, hbelow⟩)
    · exact Or.inr ⟨other, (hgone other hother).mem.1, hbelow⟩
    · exact Or.inl hdirectory
    · exact Or.inr ⟨other, hother.1, hbelow⟩
  · rintro (hdirectory | ⟨other, hother, hbelow⟩)
    · exact Or.inl (Or.inr hdirectory)
    · by_cases hdeleted : other ∈ gone
      · exact Or.inl (Or.inl ⟨other, hdeleted, hbelow⟩)
      · exact Or.inr ⟨other, ⟨hother, hdeleted⟩, hbelow⟩

include hgone in
/-- Components lead where they led. -/
theorem follow_withoutFiles (start : Location) (components : List String) :
    (tree.withoutFiles gone).follow start components = .ok place ↔
      tree.follow start components = .ok place := by
  induction components generalizing start with
  | nil => rw [follow, follow]
  | cons component rest ih =>
      rw [follow, follow, isDirectory_withoutFiles hgone]
      split
      · split
        · exact ih _
        · exact ih _
      · exact iff_of_false nofun nofun

include hgone in
/-- Paths lead where they led. -/
theorem locate_withoutFiles :
    (tree.withoutFiles gone).locate path = .ok place ↔ tree.locate path = .ok place := by
  rw [locate_eq_ok_iff, locate_eq_ok_iff, follow_withoutFiles hgone]

include hgone in
/-- The locations that are there by themselves when files are deleted: those that are not deleted,
and the directories that the deleted files were in. -/
theorem mem_places_withoutFiles :
    place ∈ (tree.withoutFiles gone).places ↔
      place ∈ tree.places ∧ place ∉ gone ∨ place ∈ gone.map List.dropLast := by
  have hdirectory : place ∈ tree.directories → place ∉ gone := by
    intro hmem hdeleted
    have hfile := (hgone place hdeleted).1
    rw [isDirectory_iff.2 (Or.inr (Or.inl ⟨place, hmem, List.prefix_rfl⟩))] at hfile
    cases hfile
  have hfiles : place ∈ (tree.withoutFiles gone).files.map (·.1) ↔
      place ∈ tree.files.map (·.1) ∧ place ∉ gone := by
    simp [withoutFiles]
  simp only [places, List.mem_append, hfiles]
  simp only [withoutFiles, List.mem_append]
  tauto

include hgone in
/-- Something is at or below a location when files are deleted exactly if something was, and the
location is not deleted. -/
theorem exists_within_withoutFiles :
    (∃ other ∈ (tree.withoutFiles gone).places, place <+: other) ↔
      (∃ other ∈ tree.places, place <+: other) ∧ place ∉ gone := by
  constructor
  · rintro ⟨other, hother, hwithin⟩
    rcases (mem_places_withoutFiles hgone).1 hother with ⟨hmem, hkept⟩ | hparent
    · refine ⟨⟨other, hmem, hwithin⟩, fun hdeleted => hkept ?_⟩
      rwa [← ((hgone place hdeleted).eq_of_below hmem hwithin).1]
    · obtain ⟨file, hfile, rfl⟩ := List.mem_map.1 hparent
      obtain ⟨hbelow, hne⟩ := (prefix_dropLast_iff (hgone file hfile).mem.2).1 hwithin
      have hmem := List.mem_append_left tree.directories (hgone file hfile).mem.1
      exact ⟨⟨file, hmem, hbelow⟩, fun hdeleted =>
        hne ((hgone place hdeleted).eq_of_below hmem hbelow).1⟩
  · rintro ⟨⟨other, hother, hwithin⟩, hkept⟩
    by_cases hdeleted : other ∈ gone
    · -- The deleted file is below the location, so the directory that it was in is at or below it.
      have hne : place ≠ other := fun hsame => hkept (hsame ▸ hdeleted)
      exact ⟨other.dropLast,
        (mem_places_withoutFiles hgone).2 (Or.inr (List.mem_map_of_mem hdeleted)),
        (prefix_dropLast_iff (hgone other hdeleted).mem.2).2 ⟨hwithin, hne⟩⟩
    · exact ⟨other, (mem_places_withoutFiles hgone).2 (Or.inl ⟨hother, hdeleted⟩), hwithin⟩

include hgone in
/-- A directory lists what it did, but for the deleted files. -/
theorem mem_names_withoutFiles :
    name ∈ (tree.withoutFiles gone).names directory ↔
      name ∈ tree.names directory ∧ directory ++ [name] ∉ gone := by
  rw [mem_names_iff, mem_names_iff, exists_within_withoutFiles hgone]

/-- Holds of paths that lead to one of these locations. -/
def leadsTo (tree : FileTree) (places : List Location) (path : String) : Bool :=
  match tree.locate path with
  | .ok place => places.contains place
  | .error _ => false

include hgone in
/-- What is listed when files are deleted: all names that do not lead to one of them. -/
theorem list_withoutFiles (hnames : tree.HasNames) (path : String) :
    (tree.withoutFiles gone).list path =
      (tree.list path).filter fun name => !tree.leadsTo gone (Text.Path.join path name) := by
  refine List.Pairwise.eq_of_mem_iff (r := (· < ·)) (pairwise_list _ _)
    ((pairwise_list _ _).filter _) fun name => ?_
  rw [List.mem_filter, mem_list_iff, mem_list_iff]
  simp only [locate_withoutFiles hgone, isDirectory_withoutFiles hgone,
    mem_names_withoutFiles hgone]
  constructor
  · rintro ⟨directory, hlocate, hdirectory, hname, hkept⟩
    refine ⟨⟨directory, hlocate, hdirectory, hname⟩, ?_⟩
    rw [leadsTo, locate_join (hnames.isName hname) hlocate hdirectory]
    simpa using hkept
  · rintro ⟨⟨directory, hlocate, hdirectory, hname⟩, hkept⟩
    refine ⟨directory, hlocate, hdirectory, hname, ?_⟩
    rw [leadsTo, locate_join (hnames.isName hname) hlocate hdirectory] at hkept
    simpa using hkept

include hgone in
/-- What is read when files are deleted: what was read by all paths that do not lead to one of
them. -/
theorem read_withoutFiles (hlocate : tree.locate path = .ok place) (hkept : place ∉ gone) :
    (tree.withoutFiles gone).read path = tree.read path := by
  rw [read, read, hlocate, (locate_withoutFiles hgone).2 hlocate, ok_bind, ok_bind,
    file?_withoutFiles hkept, isDirectory_withoutFiles hgone]

end Deleting

end FileTree

end CommentMarkers
