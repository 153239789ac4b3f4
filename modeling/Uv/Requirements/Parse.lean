import Uv.Core.Running

/-!
# Requirements files

A requirements file may include other files as requirements or as constraints.  What was
included is remembered by its path, for either mode, so that inclusions can be recursive.

A path is the list of its components, by which paths are compared.  Of the contents of a
file only what `parse_entry` returns matters; fields of the result that no check reads are
left out.  Files are local, and there are no symbolic links.
-/

namespace Uv.Requirements

open Uv.Core

/-! ## Paths -/

inductive Component where
  | root | cur | parent
  | normal (name : String)
  deriving DecidableEq

abbrev PathBuf := List Component

namespace PathBuf

/-- `Path::join`.  A current directory is a component only at the start of a path. -/
def join (path other : PathBuf) : PathBuf :=
  if other.head? = some .root then other
  else if path = [] then other
  else path ++ other.filter (· ≠ .cur)

/-- `Path::parent`. -/
def parent (path : PathBuf) : Option PathBuf :=
  match path.getLast? with
  | none | some .root => none
  | some _ => some path.dropLast

end PathBuf

/-! ## Files -/

/-- The files and directories by their names from the root. -/
structure FileSystem (Content : Type) where
  isDirectory : List String → Bool
  content : List String → Option Content
  currentDirectory : List String

namespace FileSystem

variable {Content : Type}

/-- The place that a component leads to. -/
def step (fs : FileSystem Content) (place : List String) (component : Component) :
    Option (List String) :=
  if fs.isDirectory place then
    match component with
    | .root => some []
    | .cur => some place
    | .parent => some place.dropLast
    | .normal name => some (place ++ [name])
  else none

/-- The file that a path denotes. -/
def locate (fs : FileSystem Content) (path : PathBuf) : Option (List String × Content) := do
  let file ← path.foldlM fs.step fs.currentDirectory
  let content ← fs.content file
  pure (file, content)

end FileSystem

/-! ## Statements -/

variable {Requirement Url : Type}

inductive RequirementsTxtRequirement (Requirement : Type) where
  | named (requirement : Requirement)
  | unnamed (requirement : Requirement)

/-- Statements without an effect on inclusions or errors are `other`. -/
inductive RequirementsTxtStatement (Requirement Url : Type) where
  | requirements (filename : PathBuf)
  | constraint (filename : PathBuf)
  | requirementEntry (requirement : RequirementsTxtRequirement Requirement)
  | indexUrl (url : Url)
  | other

/-- Parsed and flattened requirements. -/
structure RequirementsTxt (Requirement Url : Type) where
  requirements : List (RequirementsTxtRequirement Requirement)
  constraints : List Requirement
  indexUrl : Option Url

def RequirementsTxt.default : RequirementsTxt Requirement Url :=
  ⟨[], [], none⟩

inductive RequirementsTxtParserError where
  | io
  | entry
  | parser (message : String)
  | unnamedConstraint
  | subfile (source : RequirementsTxtParserError)

/-- The results of `parse_entry`, in order. -/
abbrev Content (Requirement Url : Type) :=
  List (Except RequirementsTxtParserError (RequirementsTxtStatement Requirement Url))

/-! ## `RequirementsTxt::parse` -/

/-- Whether nested requirements are regular requirements or are constraints. -/
inductive Mode where
  | requirements | constraints
  deriving DecidableEq

/-- The paths that were included, each with its mode, and a record of the files that were
read; the last one at the end. -/
structure VisitedFiles where
  included : List (Mode × PathBuf)
  reads : List (Mode × List String)

abbrev ParseM := RunM RequirementsTxtParserError VisitedFiles

namespace VisitedFiles

/-- `insert`. -/
def insert (visited : VisitedFiles) (pair : Mode × PathBuf) : VisitedFiles :=
  { visited with included := visited.included ++ [pair] }

def read (visited : VisitedFiles) (mode : Mode) (file : List String) : VisitedFiles :=
  { visited with reads := visited.reads ++ [(mode, file)] }

end VisitedFiles

namespace RequirementsTxt

/-- `update_from`. -/
def updateFrom (data sub : RequirementsTxt Requirement Url) : RequirementsTxt Requirement Url :=
  ⟨data.requirements ++ sub.requirements, data.constraints ++ sub.constraints,
    data.indexUrl.or sub.indexUrl⟩

/-- Merge nested requirements, unless the index URLs differ. -/
def mergeRequirements [DecidableEq Url] (data sub : RequirementsTxt Requirement Url) :
    Except RequirementsTxtParserError (RequirementsTxt Requirement Url) :=
  if sub.indexUrl.isSome ∧ data.indexUrl.isSome ∧ sub.indexUrl ≠ data.indexUrl then
    .error (.parser "Nested `requirements` file contains conflicting `--index-url`")
  else .ok (data.updateFrom sub)

/-- Constraints have names. -/
def constraintOf :
    RequirementsTxtRequirement Requirement → Except RequirementsTxtParserError Requirement
  | .named requirement => .ok requirement
  | .unnamed _ => .error .unnamedConstraint

/-- Merge a file included with `-c`: its requirements are constraints. -/
def mergeConstraints (data sub : RequirementsTxt Requirement Url) :
    Except RequirementsTxtParserError (RequirementsTxt Requirement Url) := do
  let named ← sub.requirements.mapM constraintOf
  pure { data with constraints := data.constraints ++ named ++ sub.constraints }

end RequirementsTxt

/-- A result that does not depend on the state. -/
def ofExcept {α : Type} (result : Except RequirementsTxtParserError α) : ParseM α :=
  match result with
  | .ok value => pure value
  | .error error => throw error

/-- Read a file. -/
def readFile (fs : FileSystem (Content Requirement Url)) (mode : Mode) (path : PathBuf) :
    ParseM (Content Requirement Url) :=
  match fs.locate path with
  | none => throw .io
  | some (file, content) => do
      modify (·.read mode file)
      pure content

/-- Parse an included file, unless its path was included before. -/
def includeFile (parse : Mode → PathBuf → ParseM (RequirementsTxt Requirement Url)) (mode : Mode)
    (subFile : PathBuf) (data : RequirementsTxt Requirement Url)
    (merge : RequirementsTxt Requirement Url →
      Except RequirementsTxtParserError (RequirementsTxt Requirement Url)) :
    ParseM (RequirementsTxt Requirement Url) := do
  let visited ← get
  if (mode, subFile) ∈ visited.included then pure data
  else do
    set (visited.insert (mode, subFile))
    let sub ← (parse mode subFile).mapErr .subfile
    ofExcept (merge sub)

variable [DecidableEq Url]

/-- The body of the loop over the statements. -/
def parseStatement (parse : Mode → PathBuf → ParseM (RequirementsTxt Requirement Url))
    (mode : Mode) (requirementsDir : PathBuf) (data : RequirementsTxt Requirement Url) :
    Except RequirementsTxtParserError (RequirementsTxtStatement Requirement Url) →
      ParseM (RequirementsTxt Requirement Url)
  | .error error => throw error
  | .ok (.requirements filename) =>
      includeFile parse mode (requirementsDir.join filename) data data.mergeRequirements
  | .ok (.constraint filename) =>
      includeFile parse .constraints (requirementsDir.join filename) data data.mergeConstraints
  | .ok (.requirementEntry entry) =>
      pure { data with requirements := data.requirements ++ [entry] }
  | .ok (.indexUrl url) =>
      if data.indexUrl.isSome then throw (.parser "Multiple `--index-url` values provided")
      else pure { data with indexUrl := some url }
  | .ok .other => pure data

/-- `RequirementsTxt::parse_inner`. -/
def parseInner (parse : Mode → PathBuf → ParseM (RequirementsTxt Requirement Url)) (mode : Mode)
    (requirementsDir : PathBuf) :
    Content Requirement Url → RequirementsTxt Requirement Url →
      ParseM (RequirementsTxt Requirement Url)
  | [], data => pure data
  | statement :: rest, data => do
      let data ← parseStatement parse mode requirementsDir data statement
      parseInner parse mode requirementsDir rest data

/-- `RequirementsTxt::parse_impl`. -/
def parseImpl (fs : FileSystem (Content Requirement Url)) (workingDir : PathBuf) :
    ℕ → Mode → PathBuf → ParseM (RequirementsTxt Requirement Url)
  | 0, _, _ => RunM.diverge
  | fuel + 1, mode, path => do
      let content ← readFile fs mode path
      parseInner (parseImpl fs workingDir fuel) mode (path.parent.getD workingDir) content .default

/-- `RequirementsTxt::parse`. -/
def parse (fs : FileSystem (Content Requirement Url)) (workingDir : PathBuf) (fuel : ℕ)
    (path : PathBuf) :
    Option (Except RequirementsTxtParserError (RequirementsTxt Requirement Url) ×
      VisitedFiles) :=
  (parseImpl fs workingDir fuel .requirements path).run.run ⟨[], []⟩

end Uv.Requirements
