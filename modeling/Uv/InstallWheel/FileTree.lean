import Mathlib

/-!
# File trees

A tree of files and directories without symbolic links, and the paths that are resolved in it.
A path is what stands between its slashes.  Operations fail only for what is in the tree.
-/

namespace Uv.InstallWheel

abbrev Text := List Char

/-- The names from the root on. -/
abbrev Location := List Text

inductive Kind where
  | file
  | directory
  deriving DecidableEq

structure FileTree where
  entries : List (Location × Kind)

inductive IoError where
  | notFound
  | notADirectory
  | isADirectory
  | directoryNotEmpty
  | invalidInput
  deriving DecidableEq

structure FilePath where
  rooted : Bool
  parts : List Text

/-! ## Paths -/

/-- Nothing, as between two slashes, or a dot. -/
def isHere (part : Text) : Bool := part = [] || part = ['.']

def isParent (part : Text) : Bool := part = ['.', '.']

def isName (part : Text) : Bool := !isHere part && !isParent part

/-- Where a part leads to; above the root is the root. -/
def walkPart (here : Location) (part : Text) : Location :=
  if isHere part then here else if isParent part then here.dropLast else here ++ [part]

def walk (here : Location) (parts : List Text) : Location := parts.foldl walkPart here

/-- Whether the parts lead above the directory that they start in. -/
def climbsFrom : ℕ → List Text → Bool
  | _, [] => false
  | depth, part :: rest =>
      if isHere part then climbsFrom depth rest
      else if isParent part then depth = 0 || climbsFrom (depth - 1) rest
      else climbsFrom (depth + 1) rest

namespace FilePath

def join (path : FilePath) (text : Text) : FilePath := ⟨path.rooted, path.parts ++ text.splitOn '/'⟩

def base (path : FilePath) (workingDirectory : Location) : Location :=
  if path.rooted then [] else workingDirectory

/-- The location that a path names. -/
def locate (path : FilePath) (workingDirectory : Location) : Location :=
  walk (path.base workingDirectory) path.parts

/-- The path is the empty text. -/
def isBlank (path : FilePath) : Bool := !path.rooted && path.parts.all (·.isEmpty)

def parent (path : FilePath) : FilePath :=
  ⟨path.rooted, (path.parts.filter (!isHere ·)).dropLast⟩

/-- `normalize_path`. -/
def normalizePath (path : FilePath) : List Text := walk [] path.parts

/-- The components of a path that has nothing but names. -/
def names (path : FilePath) : Option (List Text) :=
  let parts := path.parts.filter (!·.isEmpty)
  if (!path.rooted && parts.head? = some ['.']) || parts.any isParent then none
  else some (parts.filter (!isHere ·))

end FilePath

theorem walk_append (here : Location) (left right : List Text) :
    walk here (left ++ right) = walk (walk here left) right :=
  List.foldl_append

theorem walk_filter (here : Location) (parts : List Text) :
    walk here (parts.filter (!isHere ·)) = walk here parts := by
  induction parts generalizing here with
  | nil => rfl
  | cons part rest ih =>
      by_cases hpart : isHere part = true
      · rw [List.filter_cons_of_neg (by simp [hpart]), ih, walk, walk, List.foldl_cons, walkPart,
          if_pos hpart]
      · rw [List.filter_cons_of_pos (by simp [hpart])]
        exact ih (walkPart here part)

theorem walkPart_name {part : Text} (hname : isName part = true) (here : Location) :
    walkPart here part = here ++ [part] := by
  rw [isName, Bool.and_eq_true, Bool.not_eq_true', Bool.not_eq_true'] at hname
  rw [walkPart, hname.1, hname.2]
  rfl

theorem walk_names {names : List Text} (hnames : ∀ name ∈ names, isName name = true)
    (here : Location) : walk here names = here ++ names := by
  induction names generalizing here with
  | nil => exact (List.append_nil here).symm
  | cons name rest ih =>
      have hrest := ih (fun other hother => hnames other (List.mem_cons_of_mem _ hother))
        (here ++ [name])
      rw [walk, List.foldl_cons, walkPart_name (hnames name List.mem_cons_self)]
      rw [walk] at hrest
      rw [hrest, List.append_assoc]
      rfl

theorem isName_of_mem_walk {here : Location} (hhere : ∀ name ∈ here, isName name = true)
    (parts : List Text) : ∀ name ∈ walk here parts, isName name = true := by
  induction parts generalizing here with
  | nil => exact hhere
  | cons part rest ih =>
      apply ih
      intro name hname
      rw [walkPart] at hname
      split_ifs at hname with hhere' hparent
      · exact hhere name hname
      · exact hhere name (List.mem_of_mem_dropLast hname)
      · rcases List.mem_append.mp hname with hname | hname
        · exact hhere name hname
        · rw [List.mem_singleton.mp hname, isName, Bool.eq_false_iff.mpr hhere',
            Bool.eq_false_iff.mpr hparent]
          rfl

/-- Without climbing, what is lexical is what is walked. -/
theorem walk_base (base : Location) {here : Location} {parts : List Text}
    (hclimbs : climbsFrom here.length parts = false) :
    walk (base ++ here) parts = base ++ walk here parts := by
  induction parts generalizing here with
  | nil => rfl
  | cons part rest ih =>
      rw [climbsFrom] at hclimbs
      have hstep : walkPart (base ++ here) part = base ++ walkPart here part ∧
          climbsFrom (walkPart here part).length rest = false := by
        rw [walkPart, walkPart]
        split_ifs at hclimbs ⊢ with hhere hparent
        · exact ⟨rfl, hclimbs⟩
        · rw [Bool.or_eq_false_iff, decide_eq_false_iff_not] at hclimbs
          constructor
          · exact List.dropLast_append_of_ne_nil (by simpa using hclimbs.1)
          · rw [List.length_dropLast]
            exact hclimbs.2
        · constructor
          · exact List.append_assoc _ _ _
          · rw [List.length_append]
            exact hclimbs
      have hrest := ih hstep.2
      rw [← hstep.1] at hrest
      exact hrest

theorem climbsFrom_append {depth : ℕ} {left right : List Text}
    (hclimbs : climbsFrom depth (left ++ right) = false) : climbsFrom depth left = false := by
  induction left generalizing depth with
  | nil => rfl
  | cons part rest ih =>
      rw [List.cons_append, climbsFrom] at hclimbs
      rw [climbsFrom]
      split_ifs at hclimbs ⊢ with hhere hparent
      · exact ih hclimbs
      · rw [Bool.or_eq_false_iff] at hclimbs ⊢
        exact ⟨hclimbs.1, ih hclimbs.2⟩
      · exact ih hclimbs

theorem FilePath.locate_of_names {path : FilePath} {names : List Text}
    (hnames : path.names = some names) (workingDirectory : Location) :
    path.locate workingDirectory = path.base workingDirectory ++ names ∧
      ∀ name ∈ names, isName name = true := by
  rw [FilePath.names] at hnames
  split_ifs at hnames with hdots
  · simp only [Bool.or_eq_true, not_or, List.any_eq_true, not_exists, not_and] at hdots
    have hfilter : (path.parts.filter (!·.isEmpty)).filter (!isHere ·) =
        path.parts.filter (!isHere ·) := by
      rw [List.filter_filter]
      apply List.filter_congr
      intro part _
      cases part <;> simp [isHere]
    rw [hfilter, Option.some.injEq] at hnames
    have hall : ∀ name ∈ names, isName name = true := by
      intro name hname
      rw [← hnames] at hname
      obtain ⟨hmem, hhere⟩ := List.mem_filter.mp hname
      rw [isName, hhere, Bool.true_and, Bool.not_eq_true', Bool.eq_false_iff]
      apply hdots.2
      rw [List.mem_filter]
      apply And.intro hmem
      cases name with
      | nil => exact hhere
      | cons => rfl
    apply And.intro _ hall
    rw [FilePath.locate, ← walk_filter, hnames]
    exact walk_names hall _

/-! ## Resolution -/

namespace FileTree

variable {tree : FileTree} {path : FilePath} {workingDirectory location : Location}

def kind (tree : FileTree) (location : Location) : Option Kind :=
  if location = [] then some .directory
  else (tree.entries.find? fun entry => entry.1 = location).map Prod.snd

def resolve (tree : FileTree) : Location → List Text → Except IoError Location
  | here, [] => .ok here
  | here, part :: rest =>
      match tree.kind here with
      | none => .error .notFound
      | some .file => .error .notADirectory
      | some .directory => tree.resolve (walkPart here part) rest

def lookup (tree : FileTree) (workingDirectory : Location) (path : FilePath) :
    Except IoError Location :=
  if path.isBlank then .error .notFound
  else tree.resolve (path.base workingDirectory) path.parts

theorem resolve_eq_walk {here : Location} {parts : List Text}
    (hresolve : tree.resolve here parts = .ok location) : location = walk here parts := by
  induction parts generalizing here with
  | nil =>
      cases hresolve
      rfl
  | cons part rest ih =>
      rw [resolve] at hresolve
      split at hresolve
      · cases hresolve
      · cases hresolve
      · exact ih hresolve

theorem lookup_eq_locate (hlookup : tree.lookup workingDirectory path = .ok location) :
    location = path.locate workingDirectory := by
  rw [lookup] at hlookup
  split_ifs at hlookup
  exact resolve_eq_walk hlookup

/-! ## Operations -/

/-- There is an entry right below the location. -/
def hasChild (tree : FileTree) (location : Location) : Bool :=
  tree.entries.any fun entry => entry.1 ≠ [] ∧ entry.1.dropLast = location

/-- A file, a directory with all that is below it or only that, or an empty directory. -/
inductive Removal where
  | file (location : Location)
  | tree (location : Location)
  | below (location : Location)
  | directory (location : Location)

def Removal.covers : Removal → Location → Bool
  | .file location, other => other = location
  | .tree location, other => location.isPrefixOf other
  | .below location, other => location.isPrefixOf other && other ≠ location
  | .directory location, other => other = location

def remove (tree : FileTree) (removal : Removal) : FileTree :=
  ⟨tree.entries.filter fun entry => !removal.covers entry.1⟩

def endsWithName (parts : List Text) : Bool := parts.getLast?.any isName

/-- `remove_file`. -/
def removeFile (tree : FileTree) (workingDirectory : Location) (path : FilePath) :
    Except IoError Location := do
  let location ← tree.lookup workingDirectory path
  match tree.kind location with
  | none => .error .notFound
  | some .directory => .error .isADirectory
  | some .file => if endsWithName path.parts then .ok location else .error .isADirectory

/-- Whether a directory itself can be removed by the path: not by dots, and not the root. -/
def removable (path : FilePath) : Bool :=
  (path.parts.filter (!·.isEmpty)).getLast?.any isName

/-- `remove_dir_all`: what is removed, also where it fails after that. -/
def removeDirAll (tree : FileTree) (workingDirectory : Location) (path : FilePath) :
    Option Removal × Except IoError Unit :=
  match tree.lookup workingDirectory path with
  | .error e => (none, .error e)
  | .ok location =>
      match tree.kind location with
      | none => (none, .error .notFound)
      | some .file => (none, .error .notADirectory)
      | some .directory =>
          if removable path && location ≠ [] then (some (.tree location), .ok ())
          else (some (.below location), .error .invalidInput)

/-- `read_dir`, and whether there is an entry. -/
def readDir (tree : FileTree) (workingDirectory : Location) (path : FilePath) :
    Except IoError Bool := do
  let location ← tree.lookup workingDirectory path
  match tree.kind location with
  | none => .error .notFound
  | some .file => .error .notADirectory
  | some .directory => .ok (tree.hasChild location)

/-- `remove_dir`. -/
def removeDir (tree : FileTree) (workingDirectory : Location) (path : FilePath) :
    Except IoError Location := do
  let location ← tree.lookup workingDirectory path
  match tree.kind location with
  | none => .error .notFound
  | some .file => .error .notADirectory
  | some .directory =>
      if tree.hasChild location then .error .directoryNotEmpty
      else if removable path && location ≠ [] then .ok location
      else .error .invalidInput

/-- Nothing is below the location. -/
def NothingBelow (tree : FileTree) (location : Location) : Prop :=
  ∀ other, (tree.kind other).isSome → location <+: other → other = location

theorem NothingBelow.hasChild (hnothing : tree.NothingBelow location) :
    tree.hasChild location = false := by
  rw [FileTree.hasChild, List.any_eq_false]
  intro entry hentry hchild
  obtain ⟨hne, hparent⟩ : entry.1 ≠ [] ∧ entry.1.dropLast = location := of_decide_eq_true hchild
  have hsome : (tree.kind entry.1).isSome := by
    rw [kind, if_neg hne, Option.isSome_map, List.find?_isSome]
    exact ⟨entry, hentry, decide_eq_true rfl⟩
  have hbelow : location <+: entry.1 := hparent ▸ List.dropLast_prefix _
  have heq := hnothing entry.1 hsome hbelow
  have hlength := congrArg List.length (hparent.trans heq.symm)
  rw [List.length_dropLast] at hlength
  have hpos := List.length_pos_iff.mpr hne
  omega

theorem removeFile_eq_ok (hremove : tree.removeFile workingDirectory path = .ok location) :
    location = path.locate workingDirectory ∧ tree.kind location = some .file ∧
      endsWithName path.parts = true := by
  rw [removeFile] at hremove
  cases hlookup : tree.lookup workingDirectory path with
  | error =>
      rw [hlookup] at hremove
      cases hremove
  | ok found =>
      rw [hlookup] at hremove
      change (match tree.kind found with
        | none => _
        | some .directory => _
        | some .file => _) = _ at hremove
      split at hremove
      · cases hremove
      · cases hremove
      · rename_i hkind
        split_ifs at hremove with hends
        cases hremove
        exact ⟨lookup_eq_locate hlookup, hkind, hends⟩

theorem removeDirAll_removal {removal : Removal}
    (hremove : (tree.removeDirAll workingDirectory path).1 = some removal) :
    tree.lookup workingDirectory path = .ok (path.locate workingDirectory) ∧
      tree.kind (path.locate workingDirectory) = some .directory ∧
      ∀ other, removal.covers other = true → path.locate workingDirectory <+: other := by
  rw [removeDirAll] at hremove
  cases hlookup : tree.lookup workingDirectory path with
  | error =>
      rw [hlookup] at hremove
      cases hremove
  | ok found =>
      have hlocate := lookup_eq_locate hlookup
      rw [hlookup] at hremove
      dsimp only at hremove
      split at hremove
      · cases hremove
      · cases hremove
      · rename_i hkind
        rw [← hlocate]
        refine ⟨rfl, hkind, ?_⟩
        intro other hcovers
        split_ifs at hremove with hremovable
        · cases hremove
          exact List.isPrefixOf_iff_prefix.mp hcovers
        · cases hremove
          rw [Removal.covers, Bool.and_eq_true] at hcovers
          exact List.isPrefixOf_iff_prefix.mp hcovers.1

theorem removeDir_eq_ok (hremove : tree.removeDir workingDirectory path = .ok location) :
    tree.hasChild location = false ∧ tree.kind location = some .directory := by
  rw [removeDir] at hremove
  cases hlookup : tree.lookup workingDirectory path with
  | error =>
      rw [hlookup] at hremove
      cases hremove
  | ok found =>
      rw [hlookup] at hremove
      change (match tree.kind found with
        | none => _
        | some .file => _
        | some .directory => _) = _ at hremove
      split at hremove
      · cases hremove
      · cases hremove
      · rename_i hkind
        split_ifs at hremove with hchild
        cases hremove
        exact ⟨Bool.eq_false_iff.mpr hchild, hkind⟩

end FileTree

end Uv.InstallWheel
