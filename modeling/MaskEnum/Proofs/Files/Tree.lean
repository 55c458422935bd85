import MaskEnum.Files.Tree
import MaskEnum.Proofs.Result
set_option autoImplicit false

/-!
# Places in file trees

Making directories and writing files adds to a tree: a path that leads somewhere leads there
afterwards. A directory that has been made is there, so making it again changes nothing. Where a
path leads to a file, the file can be read.

## Main definitions

* `MaskEnum.FileTree.Grows` — a tree with more directories.
* `MaskEnum.FileTree.IsMade` — a directory needs no making.
* `MaskEnum.FileTree.IsOpen` — a file can be written at a path.

## Main results

* `MaskEnum.FileTree.Grows.locate` — places in a tree that has grown.
* `MaskEnum.FileTree.exists_of_locate_concat` — entries of one directory stand in one place.
* `MaskEnum.FileTree.read_eq_ok`, `MaskEnum.FileTree.write_eq_ok`,
  `MaskEnum.FileTree.makes_of_makeDirectory` — reading, writing and making directories.
* `MaskEnum.FileTree.IsMade.makeDirectory` — making a directory again.
-/

namespace MaskEnum.FileTree

variable {t t' : FileTree} {p : Path} {place q : List String} {names : List String}
  {name text : String}

/-! ## Following names -/

/-- A tree has the directories of another, and is seen from the same one. -/
structure Grows (t t' : FileTree) : Prop where
  current : t'.current = t.current
  directories : ∀ place, t.isDirectoryAt place = true → t'.isDirectoryAt place = true

theorem Grows.refl (t : FileTree) : Grows t t := ⟨rfl, fun _ => id⟩

theorem Grows.trans {t'' : FileTree} (h : Grows t t') (h' : Grows t' t'') : Grows t t'' :=
  ⟨h'.current.trans h.current,
    fun place hplace => h'.directories place (h.directories place hplace)⟩

/-- Files do not count. -/
theorem grows_files (t : FileTree) (files : Table (List String) String) :
    Grows t { t with files } :=
  ⟨rfl, fun _ => id⟩

/-- Names that lead somewhere lead there in a tree that has grown. -/
theorem Grows.follow (h : Grows t t') (hfollow : t.follow place names = .ok q) :
    t'.follow place names = .ok q := by
  fun_induction FileTree.follow t place names with
  | case1 place => exact hfollow
  | case2 place names ih =>
    rw [FileTree.follow]
    exact ih hfollow
  | case3 place name hname =>
    rw [FileTree.follow]
    · exact hfollow
    · exact hname
  | case4 place name names hname hnames next hdir ih =>
    rw [FileTree.follow, if_pos (h.directories _ hdir)]
    · exact ih hfollow
    · exact hname
    · exact hnames
  | case5 | case6 => cases hfollow

/-- So does a path. -/
theorem Grows.locate (h : Grows t t') (hlocate : t.locate p = .ok q) : t'.locate p = .ok q := by
  rw [FileTree.locate, h.current]
  exact h.follow hlocate

/-- The last name names an entry of the place that the other names lead to. -/
theorem exists_of_follow_concat (hname : name ≠ "..")
    (h : t.follow place (names ++ [name]) = .ok q) :
    ∃ base, t.follow place names = .ok base ∧ q = base ++ [name] := by
  fun_induction FileTree.follow t place names with
  | case1 place =>
    rw [List.nil_append, FileTree.follow] at h
    · exact ⟨place, rfl, (Except.ok.inj h).symm⟩
    · exact hname
  | case2 place names ih =>
    rw [List.cons_append, FileTree.follow] at h
    exact ih h
  | case3 place first hfirst =>
    rw [List.cons_append, List.nil_append, FileTree.follow] at h
    · split_ifs at h
      rw [FileTree.follow] at h
      · exact ⟨_, rfl, (Except.ok.inj h).symm⟩
      · exact hname
    · exact hfirst
    · simp
  | case4 place first names hfirst hnames next hdir ih =>
    rw [List.cons_append, FileTree.follow, if_pos hdir] at h
    · exact ih h
    · exact hfirst
    · simp
  | case5 place first names hfirst hnames next hdir hfile =>
    rw [List.cons_append, FileTree.follow, if_neg hdir, if_pos hfile] at h
    · cases h
    · exact hfirst
    · simp
  | case6 place first names hfirst hnames next hdir hfile =>
    rw [List.cons_append, FileTree.follow, if_neg hdir, if_neg hfile] at h
    · cases h
    · exact hfirst
    · simp

/-- The entries of a directory stand in one place. -/
theorem exists_of_locate_concat {anchor : String} (hname : name ≠ "..")
    (h : t.locate ⟨anchor, names ++ [name]⟩ = .ok q) :
    ∃ base, t.locate ⟨anchor, names⟩ = .ok base ∧ q = base ++ [name] :=
  exists_of_follow_concat hname h

/-! ## Files -/

/-- The text of a file. -/
theorem read_eq_ok : t.read p = .ok text ↔
    ∃ place, t.locate p = .ok place ∧ t.isDirectoryAt place = false ∧
      t.files.get? place = some text := by
  rw [read, bind_eq_ok]
  refine exists_congr fun place => and_congr_right fun _ => ?_
  cases t.isDirectoryAt place with
  | true => simp
  | false => cases t.files.get? place <;> simp

/-- A file can be written at a path, which leads to a place. -/
structure IsOpen (t : FileTree) (p : Path) (place : List String) : Prop where
  locate : t.locate p = .ok place
  free : t.isDirectoryAt place = false
  parent : t.isDirectoryAt place.dropLast = true

/-- Writing a file sets its text. -/
theorem write_eq_ok : t.write p text = .ok t' ↔
    ∃ place, t.IsOpen p place ∧ t' = { t with files := t.files.insert place text } := by
  rw [write, bind_eq_ok]
  refine exists_congr fun place => ?_
  constructor
  · rintro ⟨hlocate, h⟩
    split_ifs at h with hdir hparent
    exact ⟨⟨hlocate, Bool.eq_false_iff.mpr hdir, by simpa using hparent⟩, (Except.ok.inj h).symm⟩
  · rintro ⟨hopen, rfl⟩
    refine ⟨hopen.locate, ?_⟩
    rw [if_neg (by simp [hopen.free]), if_neg (by simp [hopen.parent])]

/-- What else is in the files does not count. -/
theorem IsOpen.of_files (h : t.IsOpen p place) (files : Table (List String) String) :
    IsOpen { t with files } p place :=
  ⟨(grows_files t files).locate h.locate, h.free, h.parent⟩

/-! ## Directories -/

/-- The directory at a path is there, unless the path has no names at all. -/
def IsMade (t : FileTree) (p : Path) : Prop :=
  p.names = [] ∨ ∃ place, t.locate p = .ok place ∧ t.isDirectoryAt place = true

/-- A directory stays in a tree that has grown. -/
theorem IsMade.of_grows (h : t.IsMade p) (hgrows : Grows t t') : t'.IsMade p := by
  rcases h with hnames | ⟨place, hlocate, hdir⟩
  · exact .inl hnames
  · exact .inr ⟨place, hgrows.locate hlocate, hgrows.directories place hdir⟩

/-- A tree comes from another by making a directory. -/
structure Makes (t : FileTree) (p : Path) (t' : FileTree) : Prop where
  grows : Grows t t'
  files : t'.files = t.files
  isMade : t'.IsMade p

/-- Making one directory. -/
theorem makes_of_makeEntry (h : t.makeEntry p = .ok t') : Makes t p t' := by
  rw [makeEntry, bind_eq_ok] at h
  obtain ⟨place, hlocate, h⟩ := h
  split_ifs at h with hdir hfile hparent
  · obtain rfl := Except.ok.inj h
    exact ⟨.refl t, rfl, .inr ⟨place, hlocate, hdir⟩⟩
  · obtain rfl := Except.ok.inj h
    have hgrows : Grows t { t with directories := t.directories ++ [place] } := by
      refine ⟨rfl, fun other hother => ?_⟩
      simp only [isDirectoryAt, Bool.or_eq_true, List.contains_iff_mem] at hother ⊢
      exact hother.imp_right (List.mem_append_left _)
    refine ⟨hgrows, rfl, .inr ⟨place, hgrows.locate hlocate, ?_⟩⟩
    simp [isDirectoryAt]

/-- Making a directory and those above it. -/
theorem makes_of_makeAll {anchor : String} (h : t.makeAll anchor names = .ok t') :
    Makes t ⟨anchor, names.reverse⟩ t' := by
  induction names generalizing t' with
  | nil =>
    obtain rfl := Except.ok.inj h
    exact ⟨.refl t, rfl, .inl rfl⟩
  | cons name above ih =>
    rw [makeAll] at h
    split at h
    · -- the directories above are made first
      obtain ⟨mid, habove, hentry⟩ := bind_eq_ok.mp h
      have hmid := ih habove
      have hlast := makes_of_makeEntry hentry
      exact ⟨hmid.grows.trans hlast.grows, hlast.files.trans hmid.files, hlast.isMade⟩
    · exact makes_of_makeEntry h

/-- **Making directories.** Afterwards the directory is there, and nothing is lost. -/
theorem makes_of_makeDirectory (h : t.makeDirectory p = .ok t') : Makes t p t' := by
  have hmakes := makes_of_makeAll h
  rwa [List.reverse_reverse] at hmakes

/-- Making a directory that is there changes nothing. -/
theorem IsMade.makeDirectory (h : t.IsMade p) : t.makeDirectory p = .ok t := by
  obtain ⟨anchor, names⟩ := p
  rcases h with hnames | ⟨place, hlocate, hdir⟩
  · obtain rfl : names = [] := hnames
    rfl
  · rw [FileTree.makeDirectory]
    cases hreverse : names.reverse with
    | nil => rfl
    | cons name above =>
      have hentry : t.makeEntry ⟨anchor, (name :: above).reverse⟩ = .ok t := by
        rw [← hreverse, List.reverse_reverse, makeEntry, hlocate]
        simp [bind, Except.bind, hdir]
      simp only [makeAll, hentry]

end MaskEnum.FileTree
