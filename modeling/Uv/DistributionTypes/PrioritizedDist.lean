import Uv.PlatformTags
import Uv.Pep508.Formula

/-!
# Prioritized distributions

The files of one version of a package, with the one to prefer.  A prioritized
distribution is started with a file, or empty, and the other files are inserted one after
another.

A marker is an element of a lattice in which `or` and `and` are join and meet, `TRUE` is
the top and `FALSE` the bottom element.  Of a file only what is read here is kept.
-/

namespace Uv.DistributionTypes

open Uv.Core Uv.Pep508 Uv.Pep440 Uv.PlatformTags

/-- Markers as they are combined here. -/
class MarkerAlgebra (Marker : Type) extends Lattice Marker, BoundedOrder Marker where
  expression : MarkerExpression → Marker

/-- The markers as sets of valuations. -/
instance [RangeOps ValidVersion] [RangeOps Text] : MarkerAlgebra (Set Valuation) where
  expression expr := {v | expr.Holds v}

/-! ## Compatibility -/

inductive IncompatibleTag where
  | invalid
  | python
  | abi
  | abiPythonVersion
  | platform
  deriving DecidableEq

def IncompatibleTag.rank : IncompatibleTag → ℕ
  | .invalid => 0
  | .python => 1
  | .abi => 2
  | .abiPythonVersion => 3
  | .platform => 4

inductive Yanked where
  | bool (yanked : Bool)
  | reason (text : String)
  deriving DecidableEq

inductive IncompatibleWheel where
  | excludeNewer (timestamp : Option ℤ)
  | tag (tag : IncompatibleTag)
  | requiresPython
  | yanked (yanked : Yanked)
  | noBinary
  | missingPlatform
  deriving DecidableEq

inductive IncompatibleSource where
  | excludeNewer (timestamp : Option ℤ)
  | requiresPython
  | yanked (yanked : Yanked)
  | noBuild
  deriving DecidableEq

inductive HashComparison where
  | mismatched
  | missing
  | matched
  deriving DecidableEq

def HashComparison.rank : HashComparison → ℕ
  | .mismatched => 0
  | .missing => 1
  | .matched => 2

/-- Initial digits and the rest, in the order in which build tags are compared. -/
abbrev BuildTag := ℕ ×ₗ WithBot String

inductive WheelCompatibility where
  | incompatible (incompatibility : IncompatibleWheel)
  | compatible (hash : HashComparison) (tagPriority : WithBot ℕ) (buildTag : WithBot BuildTag)

inductive SourceDistCompatibility where
  | incompatible (incompatibility : IncompatibleSource)
  | compatible (hash : HashComparison)

namespace Yanked

/-- Yanks with a reason are more helpful for errors. -/
def isReason : Yanked → Bool
  | .reason _ => true
  | .bool _ => false

end Yanked

def IncompatibleWheel.isMoreCompatible : IncompatibleWheel → IncompatibleWheel → Bool
  | .excludeNewer none, .excludeNewer _ => true
  | .excludeNewer (some _), .excludeNewer none => false
  | .excludeNewer (some timestamp), .excludeNewer (some other) => decide (other < timestamp)
  | .excludeNewer _, _ => true
  | .tag _, .excludeNewer _ => false
  | .tag mine, .tag other => decide (other.rank < mine.rank)
  | .tag _, _ => true
  | .requiresPython, .excludeNewer _ | .requiresPython, .tag _ => false
  | .requiresPython, .requiresPython => false
  | .requiresPython, _ => true
  | .yanked _, .excludeNewer _ | .yanked _, .tag _ | .yanked _, .requiresPython => false
  | .yanked _, .yanked other => other.isReason
  | .yanked _, _ => true
  | .noBinary, .missingPlatform => true
  | .noBinary, _ => false
  | .missingPlatform, _ => false

def IncompatibleSource.isMoreCompatible : IncompatibleSource → IncompatibleSource → Bool
  | .excludeNewer none, .excludeNewer _ => false
  | .excludeNewer (some _), .excludeNewer none => true
  | .excludeNewer (some timestamp), .excludeNewer (some other) => decide (other < timestamp)
  | .excludeNewer _, _ => true
  | .requiresPython, .excludeNewer _ => false
  | .requiresPython, .requiresPython => false
  | .requiresPython, _ => true
  | .yanked _, .excludeNewer _ | .yanked _, .requiresPython => false
  | .yanked _, .yanked other => other.isReason
  | .yanked _, .noBuild => true
  | .noBuild, _ => false

namespace WheelCompatibility

def isCompatible : WheelCompatibility → Bool
  | .compatible _ _ _ => true
  | .incompatible _ => false

def isExcluded : WheelCompatibility → Bool
  | .incompatible (.excludeNewer _) => true
  | _ => false

/-- Compatible wheels are ordered by hash, tag priority and build tag. -/
def isMoreCompatible : WheelCompatibility → WheelCompatibility → Bool
  | .compatible _ _ _, .incompatible _ => true
  | .compatible hash tagPriority buildTag, .compatible hash' tagPriority' buildTag' =>
      decide (toLex (hash'.rank, toLex (tagPriority', buildTag')) <
        toLex (hash.rank, toLex (tagPriority, buildTag)))
  | .incompatible _, .compatible _ _ _ => false
  | .incompatible incompatibility, .incompatible other =>
      incompatibility.isMoreCompatible other

end WheelCompatibility

namespace SourceDistCompatibility

def isCompatible : SourceDistCompatibility → Bool
  | .compatible _ => true
  | .incompatible _ => false

def isExcluded : SourceDistCompatibility → Bool
  | .incompatible (.excludeNewer _) => true
  | _ => false

def isMoreCompatible : SourceDistCompatibility → SourceDistCompatibility → Bool
  | .compatible _, .incompatible _ => true
  | .compatible hash, .compatible other => decide (other.rank < hash.rank)
  | .incompatible _, .compatible _ => false
  | .incompatible incompatibility, .incompatible other =>
      incompatibility.isMoreCompatible other

end SourceDistCompatibility

/-! ## Implied markers -/

structure WheelFilename where
  pythonTags : List LanguageTag
  platformTags : List PlatformTag
  deriving DecidableEq

section Implied

variable {Marker : Type} [MarkerAlgebra Marker]

/-- `<key> == "<value>"`. -/
def isValue (key : MarkerValueString) (value : String) : Marker :=
  MarkerAlgebra.expression (.string key .equal value.toList)

/-- The markers of a platform tag; none for a tag that is not known. -/
def platformTagMarkers : PlatformTag → Marker
  | .any => ⊤
  | .win32 => isValue .sysPlatform "win32" ⊓ isValue .platformMachine "x86"
  | .winAmd64 => isValue .sysPlatform "win32" ⊓ isValue .platformMachine "AMD64"
  | .winArm64 => isValue .sysPlatform "win32" ⊓ isValue .platformMachine "ARM64"
  | .macos _ _ binaryFormat =>
      isValue .sysPlatform "darwin" ⊓ binaryFormat.platformMachine.foldl
        (fun archMarker arch => archMarker ⊔ isValue .platformMachine arch.name) ⊥
  | .manylinux _ _ arch | .manylinux1 arch | .manylinux2010 arch | .manylinux2014 arch
  | .musllinux _ _ arch | .linux arch =>
      isValue .sysPlatform "linux" ⊓ isValue .platformMachine arch.name
  | _ => ⊥

/-- The set of supported platforms of a wheel. -/
def impliedPlatformMarkers (filename : WheelFilename) : Marker :=
  if .any ∈ filename.platformTags then ⊤
  else filename.platformTags.foldl (fun marker tag => marker ⊔ platformTagMarkers tag) ⊥

/-- `python_version == '<release>.*'`. -/
def isPython (release : List ℕ) : Marker :=
  MarkerAlgebra.expression (.version .pythonVersion (.equalsStarVersion (.new release)))

def languageTagMarkers : LanguageTag → Marker
  | .none => ⊤
  | .python major none => isPython [major]
  | .python major (some minor) => isPython [major, minor]
  | .cpython major minor =>
      isPython [major, minor] ⊓ isValue .platformPythonImplementation "CPython"
  | .pypy major minor => isPython [major, minor] ⊓ isValue .platformPythonImplementation "PyPy"
  | .graalpy major minor =>
      isPython [major, minor] ⊓ isValue .platformPythonImplementation "GraalPy"
  | .pyston major minor =>
      isPython [major, minor] ⊓ isValue .platformPythonImplementation "Pyston"

/-- The set of supported Python versions of a wheel. -/
def impliedPythonMarkers (filename : WheelFilename) : Marker :=
  if .none ∈ filename.pythonTags then ⊤
  else filename.pythonTags.foldl (fun marker tag => marker ⊔ languageTagMarkers tag) ⊥

def impliedMarkers (filename : WheelFilename) : Marker :=
  impliedPlatformMarkers filename ⊓ impliedPythonMarkers filename

end Implied

/-! ## `PrioritizedDist` -/

structure RegistryBuiltWheel (File : Type) where
  filename : WheelFilename
  file : File

structure RegistrySourceDist (File : Type) where
  file : File

@[ext]
structure PrioritizedDist (File HashDigest Marker : Type) where
  /-- The source distribution of highest priority. -/
  source : Option (RegistrySourceDist File × SourceDistCompatibility)
  /-- The position of the wheel of highest priority. -/
  bestWheelIndex : Option ℕ
  wheels : List (RegistryBuiltWheel File × WheelCompatibility)
  hashes : List HashDigest
  /-- The supported platforms. -/
  markers : Marker

namespace PrioritizedDist

variable {File HashDigest Marker : Type} [MarkerAlgebra Marker]

/-- The prioritized distribution without files. -/
def default : PrioritizedDist File HashDigest Marker :=
  ⟨none, none, [], [], ⊥⟩

def fromBuilt (dist : RegistryBuiltWheel File) (hashes : List HashDigest)
    (compatibility : WheelCompatibility) : PrioritizedDist File HashDigest Marker where
  markers := impliedMarkers dist.filename
  bestWheelIndex := some 0
  wheels := [(dist, compatibility)]
  source := none
  hashes := hashes

def fromSource (dist : RegistrySourceDist File) (hashes : List HashDigest)
    (compatibility : SourceDistCompatibility) : PrioritizedDist File HashDigest Marker where
  markers := ⊤
  bestWheelIndex := none
  wheels := []
  source := some (dist, compatibility)
  hashes := hashes

variable [DecidableEq Marker]

omit [MarkerAlgebra Marker] [DecidableEq Marker] in
/-- The wheel of highest priority. -/
def bestWheel (self : PrioritizedDist File HashDigest Marker) :
    Option (RegistryBuiltWheel File × WheelCompatibility) :=
  self.bestWheelIndex.bind fun i => self.wheels[i]?

def insertBuilt (self : PrioritizedDist File HashDigest Marker) (dist : RegistryBuiltWheel File)
    (hashes : List HashDigest) (compatibility : WheelCompatibility) :
    PrioritizedDist File HashDigest Marker where
  markers :=
    if compatibility.isCompatible && self.markers ≠ ⊤ then
      self.markers ⊔ impliedMarkers dist.filename
    else self.markers
  hashes := if compatibility.isExcluded then self.hashes else self.hashes ++ hashes
  bestWheelIndex :=
    match self.bestWheel with
    | some (_, existingCompatibility) =>
        if compatibility.isMoreCompatible existingCompatibility then some self.wheels.length
        else self.bestWheelIndex
    | none => some self.wheels.length
  wheels := self.wheels ++ [(dist, compatibility)]
  source := self.source

def insertSource (self : PrioritizedDist File HashDigest Marker) (dist : RegistrySourceDist File)
    (hashes : List HashDigest) (compatibility : SourceDistCompatibility) :
    PrioritizedDist File HashDigest Marker where
  markers := if compatibility.isCompatible then ⊤ else self.markers
  hashes := if compatibility.isExcluded then self.hashes else self.hashes ++ hashes
  source :=
    match self.source with
    | some (_, existingCompatibility) =>
        if compatibility.isMoreCompatible existingCompatibility then some (dist, compatibility)
        else self.source
    | none => some (dist, compatibility)
  bestWheelIndex := self.bestWheelIndex
  wheels := self.wheels

end PrioritizedDist

/-! ## The distribution to use -/

/-- A distribution with which a version can be resolved and installed. -/
inductive CompatibleDist (File HashDigest Marker : Type) where
  | sourceDist (sdist : RegistrySourceDist File)
      (prioritized : PrioritizedDist File HashDigest Marker)
  | compatibleWheel (wheel : RegistryBuiltWheel File) (priority : WithBot ℕ)
      (prioritized : PrioritizedDist File HashDigest Marker)
  | incompatibleWheel (sdist : RegistrySourceDist File) (wheel : RegistryBuiltWheel File)
      (prioritized : PrioritizedDist File HashDigest Marker)

namespace PrioritizedDist

variable {File HashDigest Marker : Type}

/-- The distribution of highest priority; a wheel comes first where the hashes are alike. -/
def get (self : PrioritizedDist File HashDigest Marker) :
    Option (CompatibleDist File HashDigest Marker) :=
  match self.bestWheel, self.source with
  | some (wheel, .compatible wheelHash tagPriority _), some (sdist, .compatible sdistHash) =>
      if wheelHash.rank < sdistHash.rank then some (.sourceDist sdist self)
      else some (.compatibleWheel wheel tagPriority self)
  | some (wheel, .compatible _ tagPriority _), _ => some (.compatibleWheel wheel tagPriority self)
  | some (wheel, .incompatible incompatibility), some (sdist, .compatible _) =>
      -- The metadata of a wheel can be used even if it cannot be installed.
      if (WheelCompatibility.incompatible incompatibility).isExcluded then
        some (.sourceDist sdist self)
      else some (.incompatibleWheel sdist wheel self)
  | none, some (sdist, .compatible _) => some (.sourceDist sdist self)
  | _, _ => none

/-- The incompatibility of the source distribution. -/
def incompatibleSource (self : PrioritizedDist File HashDigest Marker) :
    Option IncompatibleSource :=
  self.source.bind fun source =>
    match source.2 with
    | .compatible _ => none
    | .incompatible incompatibility => some incompatibility

/-- The incompatibility of the best wheel. -/
def incompatibleWheel (self : PrioritizedDist File HashDigest Marker) :
    Option IncompatibleWheel :=
  self.bestWheel.bind fun wheel =>
    match wheel.2 with
    | .compatible .. => none
    | .incompatible incompatibility => some incompatibility

end PrioritizedDist

end Uv.DistributionTypes
