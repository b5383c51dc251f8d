import PL0.FileTree

/-!
# Reading and writing files

A file that is written is the only one that changes, and the path by which it was written leads to it afterwards
(`FileTree.read_insert`).
-/

namespace PL0

namespace FileTree

variable {tree : FileTree} {location other directory next : Location} {content : ByteArray} {path name : String}
  {names : List String}

/-! ### What a written file changes -/

@[simp] theorem content?_insert_self : (tree.insert location content).content? location = some content := by
  simp [content?, insert]

private theorem lookup_filter_ne (files : List (Location × ByteArray)) (h : other ≠ location) :
    (files.filter (·.1 ≠ location)).lookup other = files.lookup other := by
  induction files with
  | nil => rfl
  | cons file files ih =>
    obtain ⟨key, value⟩ := file
    by_cases hkey : key = location
    · subst hkey
      have hne : (other == key) = false := beq_eq_false_iff_ne.2 h
      rw [List.filter_cons_of_neg (by simp), List.lookup_cons, hne, ih]
    · rw [List.filter_cons_of_pos (by simpa using hkey), List.lookup_cons, List.lookup_cons, ih]

theorem content?_insert_of_ne (h : other ≠ location) :
    (tree.insert location content).content? other = tree.content? other := by
  have hne : (other == location) = false := beq_eq_false_iff_ne.2 h
  rw [content?, content?, insert, List.lookup_cons, hne]
  exact lookup_filter_ne tree.files h

/-- The way to a directory leads through directories, so it does not depend on the files. -/
theorem step_insert (h : tree.step directory name = .ok next) :
    (tree.insert location content).step directory name = .ok next := by
  have hdirectory : ∀ l, (tree.insert location content).isDirectory l = tree.isDirectory l := fun _ => rfl
  simp only [step, hdirectory] at h ⊢
  by_cases hstay : (name = "" || name = ".")
  · rwa [if_pos hstay] at h ⊢
  rw [if_neg hstay] at h ⊢
  by_cases hup : name = ".."
  · rwa [if_pos hup] at h ⊢
  rw [if_neg hup] at h ⊢
  by_cases hlong : nameLimit < name.utf8ByteSize
  · rw [if_pos hlong] at h
    cases h
  rw [if_neg hlong] at h ⊢
  by_cases hnext : tree.isDirectory (directory ++ [name])
  · rwa [if_pos hnext] at h ⊢
  · rw [if_neg hnext] at h
    split at h <;> cases h

theorem descend_insert (h : tree.descend directory names = .ok next) :
    (tree.insert location content).descend directory names = .ok next := by
  induction names generalizing directory with
  | nil => exact h
  | cons name names ih =>
    unfold descend at h ⊢
    rw [List.foldlM_cons] at h ⊢
    cases hstep : tree.step directory name with
    | error fault =>
      rw [hstep] at h
      cases h
    | ok inner =>
      rw [hstep] at h
      rw [step_insert hstep]
      exact ih h

/-! ### Where a path leads -/

/-- A last piece without elements is a sign of a separator at the end. -/
private theorem getLast?_splitOnP {l : List Char} (h : (l.splitOnP (· = '/')).getLast? = some []) (hl : l ≠ []) :
    l.getLast? = some '/' := by
  induction l with
  | nil => exact absurd rfl hl
  | cons c l ih =>
    rw [List.splitOnP_cons_eq_if_modifyHead] at h
    by_cases hempty : l = []
    · subst hempty
      by_cases hc : c = '/'
      · rw [hc]
        rfl
      · simp [hc] at h
    · obtain ⟨first, rest, hsplit⟩ := List.exists_cons_of_ne_nil (List.splitOnP_ne_nil (· = '/') l)
      have hlast : (l.splitOnP (· = '/')).getLast? = some [] := by
        by_cases hc : c = '/'
        · rwa [if_pos (by simpa using hc), List.getLast?_cons_of_ne_nil (List.splitOnP_ne_nil _ _)] at h
        · rw [if_neg (by simpa using hc), hsplit, List.modifyHead_cons] at h
          rw [hsplit]
          cases rest with
          | nil => simp at h
          | cons piece rest => exact h
      rw [List.getLast?_cons_of_ne_nil hempty]
      exact ih hlast hempty

/-- The components of a path without the empty ones at its end. -/
def trimmed (path : String) : List String :=
  ((components path).reverse.dropWhile (· = "")).reverse

/-- If a path does not end in a slash, then nothing of it is lost. -/
private theorem dropLast_trimmed (h : path.toList.getLast? ≠ some '/') :
    (trimmed path).dropLast = (components path).dropLast ∧
      (trimmed path).getLastD "" = (components path).getLastD "" := by
  by_cases hempty : path.toList = []
  · simp [trimmed, components, hempty]
  · have hsame : trimmed path = components path := by
      unfold trimmed
      cases hreverse : (components path).reverse with
      | nil => simpa using hreverse.symm
      | cons last init =>
        have hlast : last ≠ "" := by
          rintro rfl
          have hpieces : (components path).getLast? = some "" := by
            rw [List.getLast?_eq_head?_reverse, hreverse]
            rfl
          rw [components, List.getLast?_map] at hpieces
          obtain ⟨piece, hpiece, hnil⟩ := Option.map_eq_some_iff.1 hpieces
          obtain rfl : piece = [] := by simpa using hnil
          exact h (getLast?_splitOnP hpiece hempty)
        rw [List.dropWhile_cons_of_neg (by simpa using hlast), ← hreverse, List.reverse_reverse]
    rw [hsame]
    exact ⟨rfl, rfl⟩

theorem read_of_content (hlimit : ¬pathLimit < path.utf8ByteSize)
    (hdirectory : tree.descend (tree.base path) (components path).dropLast = .ok directory)
    (hcontent : tree.content? (directory ++ [(components path).getLastD ""]) = some content) :
    tree.read path = .ok content := by
  simp only [read, if_neg hlimit, hdirectory, bind, Except.bind, hcontent]
  rfl

/-- A file is written in the directory to which all components of the path but the last one lead. -/
theorem directory_of_target (h : tree.target path = .ok location) :
    ¬pathLimit < path.utf8ByteSize ∧
      ∃ directory, tree.descend (tree.base path) (components path).dropLast = .ok directory ∧
        location = directory ++ [(components path).getLastD ""] := by
  unfold target at h
  by_cases hlimit : pathLimit < path.utf8ByteSize
  · rw [if_pos hlimit] at h
    cases h
  rw [if_neg hlimit] at h
  refine ⟨hlimit, ?_⟩
  change (tree.descend (tree.base path) (trimmed path).dropLast >>= _) = _ at h
  cases hdirectory : tree.descend (tree.base path) (trimmed path).dropLast with
  | error fault =>
    rw [hdirectory] at h
    cases h
  | ok directory =>
    rw [hdirectory] at h
    simp only [bind, Except.bind] at h
    by_cases hslash : path.toList.getLast? = some '/'
    · rw [if_pos hslash] at h
      cases h
    rw [if_neg hslash] at h
    obtain ⟨hinit, hlast⟩ := dropLast_trimmed hslash
    rw [hinit] at hdirectory
    refine ⟨directory, hdirectory, ?_⟩
    rw [← hlast]
    split at h
    · exact (Except.ok.inj h).symm
    · split at h
      · cases h
      · exact (Except.ok.inj h).symm
      · cases h

theorem read_insert (h : tree.target path = .ok location) (content : ByteArray) :
    (tree.insert location content).read path = .ok content := by
  obtain ⟨hlimit, directory, hdirectory, rfl⟩ := directory_of_target h
  exact read_of_content hlimit (descend_insert hdirectory) content?_insert_self

end FileTree

end PL0
