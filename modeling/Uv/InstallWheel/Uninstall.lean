import Uv.InstallWheel.FileTree

/-!
# Uninstalling a wheel

The entries of the record are removed one after the other, and then the directories that held
them as far as they are empty.  What is removed is logged with the tree it is removed from.
-/

namespace Uv.InstallWheel

open FileTree

/-- The site-packages directory as a path from a working directory. -/
structure Site where
  workingDirectory : Location
  path : FilePath

def Site.location (site : Site) : Location := site.path.locate site.workingDirectory

/-- `read_record_file` takes leading slashes off. -/
def readRecord (record : List Text) : List Text := record.map fun path => path.dropWhile (· = '/')

structure Trace where
  tree : FileTree
  log : List (FileTree × Removal)
  /-- The normalized parents of removed files, of which the paths have the root of the site. -/
  visited : List (List Text)
  fileCount : ℕ
  dirCount : ℕ

namespace Trace

def start (tree : FileTree) : Trace := ⟨tree, [], [], 0, 0⟩

def apply (trace : Trace) (removal : Removal) : Trace :=
  { trace with
    tree := trace.tree.remove removal
    log := trace.log ++ [(trace.tree, removal)] }

def removedFile (trace : Trace) (location : Location) (parent : List Text) : Trace :=
  let trace := trace.apply (.file location)
  { trace with
    fileCount := trace.fileCount + 1
    visited := if parent ∈ trace.visited then trace.visited else parent :: trace.visited }

/-- What `remove_dir_all` removes, and whether it counts. -/
def removedAll (trace : Trace) (removal : Option Removal) (counts : Bool) : Trace :=
  let trace := (removal.map trace.apply).getD trace
  { trace with dirCount := if counts then trace.dirCount + 1 else trace.dirCount }

end Trace

def removeEntry (site : Site) (entry : Text) (trace : Trace) : Trace × Except IoError Unit :=
  let path := site.path.join entry
  match trace.tree.removeFile site.workingDirectory path with
  | .ok location => (trace.removedFile location path.parent.normalizePath, .ok ())
  | .error .notFound => (trace, .ok ())
  | .error err =>
      match trace.tree.removeDirAll site.workingDirectory path with
      | (removal, .ok ()) => (trace.removedAll removal true, .ok ())
      | (removal, .error .notFound) => (trace.removedAll removal false, .ok ())
      | (removal, .error _) => (trace.removedAll removal false, .error err)

def removeEntries (site : Site) : List Text → Trace → Trace × Except IoError Unit
  | [], trace => (trace, .ok ())
  | entry :: rest, trace =>
      match removeEntry site entry trace with
      | (trace, .ok ()) => removeEntries site rest trace
      | (trace, .error e) => (trace, .error e)

def pycache : Text := "__pycache__".toList

/-- `read_dir` and `remove_dir` of a directory, and whether its parent is next. -/
def removeEmpty (site : Site) (path : FilePath) (trace : Trace) : Trace × Except IoError Bool :=
  match trace.tree.readDir site.workingDirectory path with
  | .error .notFound => (trace, .ok false)
  | .error e => (trace, .error e)
  | .ok true => (trace, .ok false)
  | .ok false =>
      match trace.tree.removeDir site.workingDirectory path with
      | .error e => (trace, .error e)
      | .ok location =>
          let trace := trace.apply (.directory location)
          ({ trace with dirCount := trace.dirCount + 1 }, .ok true)

/-- One directory of the loop: its `__pycache__`, and the directory if it is empty. -/
def cleanDirectory (site : Site) (names : List Text) (trace : Trace) :
    Trace × Except IoError Bool :=
  let path : FilePath := ⟨site.path.rooted, names⟩
  match trace.tree.removeDirAll site.workingDirectory ⟨site.path.rooted, names ++ [pycache]⟩ with
  | (removal, .ok ()) => removeEmpty site path (trace.removedAll removal true)
  | (removal, .error .notFound) => removeEmpty site path (trace.removedAll removal false)
  | (removal, .error e) => (trace.removedAll removal false, .error e)

/-- The loop from a directory upwards; its names are in reverse. -/
def cleanUp (site : Site) : List Text → Trace → Trace × Except IoError Unit
  | [], trace =>
      if site.path.names = some [] then (trace, .ok ())
      else
        match cleanDirectory site [] trace with
        | (trace, .ok _) => (trace, .ok ())
        | (trace, .error e) => (trace, .error e)
  | name :: above, trace =>
      if site.path.names = some (name :: above).reverse then (trace, .ok ())
      else
        match cleanDirectory site (name :: above).reverse trace with
        | (trace, .ok true) => cleanUp site above trace
        | (trace, .ok false) => (trace, .ok ())
        | (trace, .error e) => (trace, .error e)

/-- Whether the names of a path start with those of the site. -/
def startsWithSite (site : Site) (names : List Text) : Bool :=
  site.path.names.any fun start => start.isPrefixOf names

def cleanVisited (site : Site) : List (List Text) → Trace → Trace × Except IoError Unit
  | [], trace => (trace, .ok ())
  | names :: rest, trace =>
      if startsWithSite site names then
        match cleanUp site names.reverse trace with
        | (trace, .ok ()) => cleanVisited site rest trace
        | (trace, .error e) => (trace, .error e)
      else cleanVisited site rest trace

/-- The visited directories from the last to the first. -/
def Trace.visitedReverse (trace : Trace) : List (List Text) :=
  trace.visited.mergeSort fun left right => !decide (left < right)

def uninstallWheel (site : Site) (record : List Text) (tree : FileTree) :
    Trace × Except IoError Unit :=
  match removeEntries site (readRecord record) (.start tree) with
  | (trace, .ok ()) => cleanVisited site trace.visitedReverse trace
  | (trace, .error e) => (trace, .error e)

/-! ## What belongs to the package -/

variable {site : Site} {record : List Text} {trace trace' : Trace}
  {log log' : List (FileTree × Removal)} {location : Location}

/-- The location is strictly inside site-packages. -/
def Site.Inside (site : Site) (location : Location) : Prop :=
  site.location <+: location ∧ location ≠ site.location

/-- An entry of the record names the location. -/
def Named (site : Site) (record : List Text) (location : Location) : Prop :=
  ∃ entry ∈ readRecord record, (site.path.join entry).locate site.workingDirectory = location

/-- The directory or one below it held a file that was deleted. -/
def Held (log : List (FileTree × Removal)) (directory : Location) : Prop :=
  ∃ tree location, (tree, Removal.file location) ∈ log ∧ directory <+: location.dropLast

/-- Below a named directory strictly inside site-packages, or below the `__pycache__` of one
that held a deleted file. -/
def BelowPackage (site : Site) (record : List Text) (log : List (FileTree × Removal))
    (location : Location) : Prop :=
  (∃ directory, site.Inside directory ∧ Named site record directory ∧ directory <+: location) ∨
    ∃ directory, site.Inside directory ∧ Held log directory ∧ directory ++ [pycache] <+: location

/-- The files that a removal deletes are of the package, and so are the directories that are
not empty. -/
def Legitimate (site : Site) (record : List Text) (log : List (FileTree × Removal))
    (step : FileTree × Removal) : Prop :=
  ∀ location, step.2.covers location = true →
    (step.1.kind location = some .file →
      Named site record location ∨ BelowPackage site record log location) ∧
    (step.1.kind location = some .directory →
      BelowPackage site record log location ∨ step.1.hasChild location = false)

/-- Everything that was removed is of the package. -/
def OnlyPackage (site : Site) (record : List Text) (log : List (FileTree × Removal)) : Prop :=
  ∀ step ∈ log, Legitimate site record log step

theorem Held.mono (hsub : log ⊆ log') {directory : Location} (hheld : Held log directory) :
    Held log' directory := by
  obtain ⟨tree, location, hmem, hbelow⟩ := hheld
  exact ⟨tree, location, hsub hmem, hbelow⟩

theorem BelowPackage.mono (hsub : log ⊆ log') (hbelow : BelowPackage site record log location) :
    BelowPackage site record log' location := by
  apply hbelow.imp_right
  rintro ⟨directory, hinside, hheld, hpycache⟩
  exact ⟨directory, hinside, hheld.mono hsub, hpycache⟩

theorem Legitimate.mono (hsub : log ⊆ log') {step : FileTree × Removal}
    (hlegitimate : Legitimate site record log step) : Legitimate site record log' step := by
  intro location hcovers
  obtain ⟨hfile, hdirectory⟩ := hlegitimate location hcovers
  constructor
  · intro hkind
    exact (hfile hkind).imp_right (BelowPackage.mono hsub)
  · intro hkind
    exact (hdirectory hkind).imp_left (BelowPackage.mono hsub)

theorem OnlyPackage.append {step : FileTree × Removal} (honly : OnlyPackage site record log)
    (hstep : Legitimate site record (log ++ [step]) step) :
    OnlyPackage site record (log ++ [step]) := by
  intro other hother
  rcases List.mem_append.mp hother with hother | hother
  · exact (honly other hother).mono (List.subset_append_left _ _)
  · rw [List.mem_singleton.mp hother]
    exact hstep

/-! ## Entries -/

/-- The entry does not name a directory that is not empty and not strictly inside
site-packages, and a file that it names from a relative one is not reached from above the working
directory. -/
structure Harmless (site : Site) (entry : Text) (tree : FileTree) : Prop where
  directory : tree.lookup site.workingDirectory (site.path.join entry) =
      .ok ((site.path.join entry).locate site.workingDirectory) →
    tree.kind ((site.path.join entry).locate site.workingDirectory) = some .directory →
    ¬ site.Inside ((site.path.join entry).locate site.workingDirectory) →
    tree.NothingBelow ((site.path.join entry).locate site.workingDirectory)
  climbs : ∀ location,
    tree.removeFile site.workingDirectory (site.path.join entry) = .ok location →
    site.path.rooted = false → climbsFrom 0 (site.path.join entry).parts = false

/-- The log has what belongs to the package, and the visited directories held deleted files. -/
structure Invariant (site : Site) (record : List Text) (trace : Trace) : Prop where
  only : OnlyPackage site record trace.log
  held : ∀ names ∈ trace.visited, (∀ name ∈ names, isName name = true) ∧
    Held trace.log (site.path.base site.workingDirectory ++ names)

theorem Invariant.apply (hinvariant : Invariant site record trace) {removal : Removal}
    (hstep : Legitimate site record (trace.apply removal).log (trace.tree, removal)) :
    Invariant site record (trace.apply removal) where
  only := hinvariant.only.append hstep
  held names hnames := by
    obtain ⟨hnormal, hheld⟩ := hinvariant.held names hnames
    exact ⟨hnormal, hheld.mono (List.subset_append_left _ _)⟩

theorem Invariant.removedAll (hinvariant : Invariant site record trace)
    {removal : Option Removal} {counts : Bool}
    (hstep : ∀ found, removal = some found →
      Legitimate site record (trace.apply found).log (trace.tree, found)) :
    Invariant site record (trace.removedAll removal counts) := by
  cases removal with
  | none => exact ⟨hinvariant.only, hinvariant.held⟩
  | some found =>
      have happly := hinvariant.apply (hstep found rfl)
      exact ⟨happly.only, happly.held⟩

/-- The parent of a removed file is normalized to where the file was. -/
theorem normalizePath_parent {path : FilePath} (workingDirectory : Location)
    (hends : endsWithName path.parts = true)
    (hclimbs : path.rooted = false → climbsFrom 0 path.parts = false) :
    path.base workingDirectory ++ path.parent.normalizePath =
      (path.locate workingDirectory).dropLast := by
  obtain ⟨name, hlast, hname⟩ := (Option.any_eq_true _ _).mp hends
  obtain ⟨init, hparts⟩ := List.getLast?_eq_some_iff.mp hlast
  have hhere : isHere name = false := by
    rw [isName, Bool.and_eq_true, Bool.not_eq_true'] at hname
    exact hname.1
  have hfilter : (path.parts.filter (!isHere ·)).dropLast = init.filter (!isHere ·) := by
    rw [hparts, List.filter_append, List.filter_cons_of_pos (by simp [hhere])]
    exact List.dropLast_concat
  have hparent : path.parent.normalizePath = walk [] init := by
    rw [FilePath.normalizePath, FilePath.parent]
    dsimp only
    rw [hfilter, walk_filter]
  have hlocate : (path.locate workingDirectory).dropLast =
      walk (path.base workingDirectory) init := by
    rw [FilePath.locate, hparts, walk_append]
    have hstep : walk (walk (path.base workingDirectory) init) [name] =
        walk (path.base workingDirectory) init ++ [name] := walkPart_name hname _
    rw [hstep]
    exact List.dropLast_concat
  rw [hparent, hlocate]
  cases hrooted : path.rooted with
  | true =>
      have hbase : path.base workingDirectory = [] := by rw [FilePath.base, if_pos hrooted]
      rw [hbase]
      rfl
  | false =>
      have hinit : climbsFrom 0 init = false := by
        have hall := hclimbs hrooted
        rw [hparts] at hall
        exact climbsFrom_append hall
      have hwalk := walk_base (path.base workingDirectory) (show climbsFrom ([] : Location).length init = false from hinit)
      rw [List.append_nil] at hwalk
      exact hwalk.symm

/-- A file that the entry names is removed. -/
theorem Invariant.removedFile (hinvariant : Invariant site record trace) {entry : Text}
    (hentry : entry ∈ readRecord record) (hharmless : Harmless site entry trace.tree)
    (hremove : trace.tree.removeFile site.workingDirectory (site.path.join entry) =
      .ok location) :
    Invariant site record
      (trace.removedFile location (site.path.join entry).parent.normalizePath) := by
  obtain ⟨hlocate, hkind, hends⟩ := removeFile_eq_ok hremove
  have hstep : Legitimate site record (trace.apply (.file location)).log
      (trace.tree, .file location) := by
    intro other hcovers
    have heq : other = location := of_decide_eq_true hcovers
    rw [heq]
    constructor
    · intro _
      exact Or.inl ⟨entry, hentry, hlocate.symm⟩
    · intro hdirectory
      rw [hkind] at hdirectory
      cases hdirectory
  have happly := hinvariant.apply hstep
  constructor
  · exact happly.only
  · intro names hnames
    have hcases : names = (site.path.join entry).parent.normalizePath ∨ names ∈ trace.visited := by
      rw [Trace.removedFile] at hnames
      dsimp only at hnames
      split_ifs at hnames
      · exact Or.inr hnames
      · exact List.mem_cons.mp hnames
    rcases hcases with rfl | hold
    · apply And.intro
      · exact isName_of_mem_walk (by simp) _
      · refine ⟨trace.tree, location, by simp [Trace.removedFile, Trace.apply], ?_⟩
        have hparent := normalizePath_parent site.workingDirectory hends (hharmless.climbs location hremove)
        rw [hlocate, ← hparent]
        exact List.prefix_rfl
    · exact happly.held names hold

/-- A directory that the entry names is removed. -/
theorem legitimate_removeDirAll {entry : Text} (hentry : entry ∈ readRecord record)
    (hharmless : Harmless site entry trace.tree) {removal : Removal}
    (hremove : (trace.tree.removeDirAll site.workingDirectory (site.path.join entry)).1 =
      some removal) : Legitimate site record log (trace.tree, removal) := by
  obtain ⟨hlookup, hkind, hcovers⟩ := removeDirAll_removal hremove
  intro other hother
  have hbelow := hcovers other hother
  by_cases hinside : site.Inside ((site.path.join entry).locate site.workingDirectory)
  · have hpackage : BelowPackage site record log other :=
      Or.inl ⟨_, hinside, ⟨entry, hentry, rfl⟩, hbelow⟩
    exact ⟨fun _ => Or.inr hpackage, fun _ => Or.inl hpackage⟩
  · have hnothing := hharmless.directory hlookup hkind hinside
    constructor
    · intro hfile
      rw [hnothing other (by rw [hfile]; rfl) hbelow, hkind] at hfile
      cases hfile
    · intro hdirectory
      rw [hnothing other (by rw [hdirectory]; rfl) hbelow]
      exact Or.inr hnothing.hasChild

theorem removeEntry_invariant (hinvariant : Invariant site record trace) {entry : Text}
    (hentry : entry ∈ readRecord record) (hharmless : Harmless site entry trace.tree) :
    Invariant site record (removeEntry site entry trace).1 := by
  rw [removeEntry]
  have hall : ∀ counts, Invariant site record (trace.removedAll
      (trace.tree.removeDirAll site.workingDirectory (site.path.join entry)).1 counts) := by
    intro counts
    apply hinvariant.removedAll
    intro found hfound
    exact legitimate_removeDirAll hentry hharmless hfound
  split
  · rename_i location hremove
    exact hinvariant.removedFile hentry hharmless hremove
  · exact hinvariant
  · split
    · rename_i removal hremove
      rw [hremove] at hall
      exact hall true
    · rename_i removal hremove
      rw [hremove] at hall
      exact hall false
    · rename_i removal _ _ hremove
      rw [hremove] at hall
      exact hall false

theorem removeEntries_append (left right : List Text) (trace : Trace) :
    removeEntries site (left ++ right) trace =
      match removeEntries site left trace with
      | (trace, .ok ()) => removeEntries site right trace
      | (trace, .error e) => (trace, .error e) := by
  induction left generalizing trace with
  | nil => rfl
  | cons entry rest ih =>
      rw [List.cons_append, removeEntries, removeEntries]
      split
      · exact ih _
      · rfl

/-- Every entry that is reached is harmless in the tree that it is reached in. -/
def AllHarmless (site : Site) (record : List Text) (tree : FileTree) : Prop :=
  ∀ done entry rest, readRecord record = done ++ entry :: rest →
    ∀ trace, removeEntries site done (.start tree) = (trace, .ok ()) →
      Harmless site entry trace.tree

theorem start_invariant (tree : FileTree) : Invariant site record (.start tree) where
  only step hstep := by cases hstep
  held names hnames := by cases hnames

theorem removeEntries_invariant {tree : FileTree} (hall : AllHarmless site record tree)
    {done rest : List Text} (hrecord : readRecord record = done ++ rest)
    (hdone : removeEntries site done (.start tree) = (trace, .ok ()))
    (hinvariant : Invariant site record trace) :
    Invariant site record (removeEntries site rest trace).1 := by
  induction rest generalizing done trace with
  | nil => exact hinvariant
  | cons entry rest ih =>
      have hentry : entry ∈ readRecord record := by simp [hrecord]
      have hstep := removeEntry_invariant hinvariant hentry
        (hall done entry rest hrecord trace hdone)
      rw [removeEntries]
      split
      · rename_i next hnext
        rw [hnext] at hstep
        apply ih _ _ hstep
        · exact done ++ [entry]
        · rw [hrecord, List.append_assoc]
          rfl
        · rw [removeEntries_append, hdone]
          dsimp only
          rw [removeEntries, hnext]
          rfl
      · rename_i next e hnext
        rw [hnext] at hstep
        exact hstep

/-! ## Cleaning up -/

/-- The invariant holds of what comes after, and nothing is lost from the log. -/
structure Extends (site : Site) (record : List Text) (trace trace' : Trace) : Prop where
  invariant : Invariant site record trace'
  log : trace.log ⊆ trace'.log

theorem Extends.trans {trace'' : Trace} (hfirst : Extends site record trace trace')
    (hlast : Extends site record trace' trace'') : Extends site record trace trace'' :=
  ⟨hlast.invariant, List.Subset.trans hfirst.log hlast.log⟩

theorem removedAll_log (removal : Option Removal) (counts : Bool) :
    trace.log ⊆ (trace.removedAll removal counts).log := by
  cases removal with
  | none => exact List.Subset.refl _
  | some found => exact List.subset_append_left _ _

theorem removeEmpty_extends (hinvariant : Invariant site record trace) (path : FilePath) :
    Extends site record trace (removeEmpty site path trace).1 := by
  have hself : Extends site record trace trace := ⟨hinvariant, List.Subset.refl _⟩
  rw [removeEmpty]
  split
  · exact hself
  · exact hself
  · exact hself
  · split
    · exact hself
    · rename_i location hremove
      obtain ⟨hchild, hkind⟩ := removeDir_eq_ok hremove
      have hstep : Legitimate site record (trace.apply (.directory location)).log
          (trace.tree, .directory location) := by
        intro other hcovers
        have heq : other = location := of_decide_eq_true hcovers
        rw [heq]
        constructor
        · intro hfile
          rw [hkind] at hfile
          cases hfile
        · exact fun _ => Or.inr hchild
      have happly := hinvariant.apply hstep
      exact ⟨⟨happly.only, happly.held⟩, List.subset_append_left _ _⟩

theorem cleanDirectory_extends (hinvariant : Invariant site record trace) {names : List Text}
    (hnames : ∀ name ∈ names, isName name = true)
    (hinside : site.Inside (site.path.base site.workingDirectory ++ names))
    (hheld : Held trace.log (site.path.base site.workingDirectory ++ names)) :
    Extends site record trace (cleanDirectory site names trace).1 := by
  have hall : ∀ counts, Extends site record trace (trace.removedAll
      (trace.tree.removeDirAll site.workingDirectory
        ⟨site.path.rooted, names ++ [pycache]⟩).1 counts) := by
    intro counts
    apply Extends.mk _ (removedAll_log _ counts)
    apply hinvariant.removedAll
    intro found hfound
    obtain ⟨_, _, hcovers⟩ := removeDirAll_removal hfound
    have hlocate : FilePath.locate ⟨site.path.rooted, names ++ [pycache]⟩ site.workingDirectory =
        site.path.base site.workingDirectory ++ names ++ [pycache] := by
      rw [FilePath.locate, walk_names, ← List.append_assoc]
      · rfl
      · intro name hname
        rcases List.mem_append.mp hname with hname | hname
        · exact hnames name hname
        · rw [List.mem_singleton.mp hname]
          rfl
    intro other hother
    have hbelow : BelowPackage site record (trace.apply found).log other :=
      Or.inr ⟨_, hinside, hheld.mono (List.subset_append_left _ _),
        hlocate ▸ hcovers other hother⟩
    exact ⟨fun _ => Or.inr hbelow, fun _ => Or.inl hbelow⟩
  rw [cleanDirectory]
  split
  · rename_i removal hremove
    rw [hremove] at hall
    exact (hall true).trans (removeEmpty_extends (hall true).invariant _)
  · rename_i removal hremove
    rw [hremove] at hall
    exact (hall false).trans (removeEmpty_extends (hall false).invariant _)
  · rename_i removal _ _ hremove
    rw [hremove] at hall
    exact hall false

theorem cleanUp_extends {reversed start : List Text} (hsite : site.path.names = some start)
    (hinvariant : Invariant site record trace)
    (hnames : ∀ name ∈ reversed.reverse, isName name = true)
    (hstart : start <+: reversed.reverse)
    (hheld : Held trace.log (site.path.base site.workingDirectory ++ reversed.reverse)) :
    Extends site record trace (cleanUp site reversed trace).1 := by
  have hself : Extends site record trace trace := ⟨hinvariant, List.Subset.refl _⟩
  induction reversed generalizing trace with
  | nil =>
      have hnil : start = [] := List.prefix_nil.mp hstart
      rw [cleanUp, if_pos (hnil ▸ hsite)]
      exact hself
  | cons name above ih =>
      rw [cleanUp]
      split_ifs with hstop
      · exact hself
      · have hne : start ≠ (name :: above).reverse := fun heq => hstop (heq ▸ hsite)
        have hlocation : site.location = site.path.base site.workingDirectory ++ start :=
          (FilePath.locate_of_names hsite _).1
        have hinside : site.Inside
            (site.path.base site.workingDirectory ++ (name :: above).reverse) := by
          rw [Site.Inside, hlocation]
          apply And.intro
          · exact (List.prefix_append_right_inj _).mpr hstart
          · exact fun heq => hne (List.append_cancel_left heq).symm
        have hclean := cleanDirectory_extends hinvariant hnames hinside hheld
        rw [List.reverse_cons] at hstart hne
        have habove : start <+: above.reverse :=
          (List.prefix_concat_iff.mp hstart).resolve_left hne
        split
        · rename_i next hnext
          rw [hnext] at hclean
          apply hclean.trans
          apply ih hclean.invariant
          · intro other hother
            apply hnames other
            rw [List.reverse_cons]
            exact List.mem_append_left _ hother
          · exact habove
          · obtain ⟨tree, location, hmem, hbelow⟩ := hheld.mono hclean.log
            refine ⟨tree, location, hmem, List.IsPrefix.trans ?_ hbelow⟩
            rw [List.reverse_cons]
            apply (List.prefix_append_right_inj _).mpr
            exact List.prefix_append _ _
          · exact ⟨hclean.invariant, List.Subset.refl _⟩
        · rename_i next hnext
          rw [hnext] at hclean
          exact hclean
        · rename_i next e hnext
          rw [hnext] at hclean
          exact hclean

theorem cleanVisited_extends {visited : List (List Text)}
    (hinvariant : Invariant site record trace)
    (hvisited : ∀ names ∈ visited, (∀ name ∈ names, isName name = true) ∧
      Held trace.log (site.path.base site.workingDirectory ++ names)) :
    Extends site record trace (cleanVisited site visited trace).1 := by
  induction visited generalizing trace with
  | nil => exact ⟨hinvariant, List.Subset.refl _⟩
  | cons names rest ih =>
      have hrest : ∀ other ∈ rest, other ∈ names :: rest := fun _ => List.mem_cons_of_mem _
      rw [cleanVisited]
      split_ifs with hstarts
      · obtain ⟨start, hsite, hbeginning⟩ := (Option.any_eq_true _ _).mp hstarts
        obtain ⟨hnormal, hheld⟩ := hvisited names List.mem_cons_self
        have hclean : Extends site record trace (cleanUp site names.reverse trace).1 := by
          apply cleanUp_extends hsite hinvariant
          · rwa [List.reverse_reverse]
          · rw [List.reverse_reverse]
            exact List.isPrefixOf_iff_prefix.mp hbeginning
          · rwa [List.reverse_reverse]
        split
        · rename_i next hnext
          rw [hnext] at hclean
          apply hclean.trans
          apply ih hclean.invariant
          intro other hother
          obtain ⟨hnormal, hheld⟩ := hvisited other (hrest other hother)
          exact ⟨hnormal, hheld.mono hclean.log⟩
        · rename_i next e hnext
          rw [hnext] at hclean
          exact hclean
      · exact ih hinvariant fun other hother => hvisited other (hrest other hother)

/-- A package of one file, in a site-packages directory right below the root. -/
def oneFile : FileTree :=
  ⟨[(["s".toList], .directory), (["s".toList, "a.py".toList], .file)]⟩

def rootSite : Site := ⟨[], ⟨true, ["s".toList]⟩⟩

end Uv.InstallWheel
