import Uv.Resolver.VersionMap

/-!
# Candidates

The version of a package that is tried next: the versions of the indexes are gone through from
the highest or from the lowest one, and the first that can be used is taken.

Merging several indexes is a parameter.
-/

namespace Uv.Resolver

open Uv.Core Uv.DistributionTypes Uv.Pep440

variable {File HashDigest Marker : Type}

/-- The sets of versions that can be built. -/
abbrev VersionRange := {range : Ranges ValidVersion // range.Valid}

/-! ## Entries of a map -/

namespace VersionMap

variable {Dist : Type}

def getLazy (map : VersionMapLazy Dist) : LazyPrioritizedDist Dist → Option Dist
  | .onlyFlat dist => some dist
  | .onlySimple datumIndex => map.getSimple none datumIndex
  | .both flat datumIndex => map.getSimple (some flat) datumIndex

/-- The versions with what their handles give. -/
def handles : VersionMap Dist → List (ValidVersion × Option Dist)
  | .eager map => map.map.entries.map fun entry => (entry.1, some entry.2)
  | .lazy map => map.map.entries.map fun entry => (entry.1, getLazy map entry.2)

end VersionMap

/-- `as_singleton`: the version if the set has one only. -/
def asSingleton (range : Ranges ValidVersion) : Option ValidVersion :=
  match range.segments with
  | [(.included version, .included other)] =>
      if compare version other == .eq then some version else none
  | _ => none

/-- The entries that `BTreeMap::range` goes through. -/
def inBounds (range : Ranges ValidVersion) (version : ValidVersion) : Bool :=
  let bounds := range.boundingRange.getD (.unbounded, .unbounded)
  bounds.1.isBelow version && bounds.2.isAbove version

/-- The entries of a map for a set of versions, the lowest version first. -/
def VersionMap.iter {Dist : Type} (map : VersionMap Dist) (range : Ranges ValidVersion) :
    List (ValidVersion × Option Dist) :=
  match asSingleton range with
  | some version => (map.handles.find? fun entry => compare version entry.1 == .eq).toList
  | none => map.handles.filter fun entry => inBounds range entry.1

/-! ## Candidates -/

inductive IncompatibleDist where
  | wheel (incompatibility : IncompatibleWheel)
  | source (incompatibility : IncompatibleSource)
  | unavailable

inductive CandidateDist (File HashDigest Marker : Type) where
  | compatible (dist : CompatibleDist File HashDigest Marker)
  | incompatible (incompatibleDist : IncompatibleDist)
      (prioritizedDist : PrioritizedDist File HashDigest Marker)

namespace CandidateDist

def ofPrioritized (value : PrioritizedDist File HashDigest Marker) :
    CandidateDist File HashDigest Marker :=
  match value.get with
  | some dist => .compatible dist
  | none =>
      match value.incompatibleSource with
      | some incompatibility => .incompatible (.source incompatibility) value
      | none =>
          match value.incompatibleWheel with
          | some incompatibility => .incompatible (.wheel incompatibility) value
          | none => .incompatible .unavailable value

/-- The distribution is newer than allowed. -/
def isExcluded : CandidateDist File HashDigest Marker → Bool
  | .incompatible (.source (.excludeNewer _)) _ => true
  | .incompatible (.wheel (.excludeNewer _)) _ => true
  | _ => false

def isIncompatible : CandidateDist File HashDigest Marker → Bool
  | .incompatible .. => true
  | .compatible _ => false

end CandidateDist

inductive VersionChoiceKind where
  | preference
  | installed
  | compatible

structure Candidate (Name File HashDigest Marker : Type) where
  name : Name
  version : ValidVersion
  dist : CandidateDist File HashDigest Marker
  choiceKind : VersionChoiceKind

def Candidate.new {Name : Type} (name : Name) (version : ValidVersion)
    (dist : PrioritizedDist File HashDigest Marker) (choiceKind : VersionChoiceKind) :
    Candidate Name File HashDigest Marker :=
  ⟨name, version, .ofPrioritized dist, choiceKind⟩

/-! ## Selection -/

inductive IndexStrategy where
  | firstIndex
  | unsafeFirstMatch
  | unsafeBestMatch
  deriving DecidableEq

inductive AllowPrerelease where
  | yes
  | no
  | ifNecessary

/-- The direct dependencies are those of the environment. -/
inductive ResolutionStrategy (Name : Type) where
  | highest
  | lowest
  | lowestDirect (directDependencies : Name → Bool)

/-- The pre-release strategy is what it allows in the environment. -/
structure CandidateSelector (Name : Type) where
  resolutionStrategy : ResolutionStrategy Name
  prereleaseStrategy : Name → AllowPrerelease
  indexStrategy : IndexStrategy

section Select

variable {Name : Type} (packageName : Name) (range : VersionRange) (allowPrerelease : Bool)

/-- The candidate of an entry, unless the entry is skipped. -/
def candidateOf (entry : ValidVersion × Option (PrioritizedDist File HashDigest Marker)) :
    Option (Candidate Name File HashDigest Marker) :=
  if entry.1.val.anyPrerelease && !allowPrerelease then none
  else if !range.val.contains entry.1 then none
  else
    match entry.2 with
    | none => none
    | some dist =>
        let candidate := Candidate.new packageName entry.1 dist .compatible
        if candidate.dist.isExcluded then none else some candidate

/-- The loop of `select_candidate`; `incompatible` is the first candidate that is not
compatible. -/
def selectCandidate (incompatible : Option (Candidate Name File HashDigest Marker)) :
    List (ValidVersion × Option (PrioritizedDist File HashDigest Marker)) →
      Option (Candidate Name File HashDigest Marker)
  | [] => incompatible
  | entry :: rest =>
      if incompatible.any fun candidate => compare entry.1 candidate.version != .eq then
        incompatible
      else
        match candidateOf packageName range allowPrerelease entry with
        | none => selectCandidate incompatible rest
        | some candidate =>
            if candidate.dist.isIncompatible then
              selectCandidate (incompatible.or (some candidate)) rest
            else some candidate

end Select

/-- An element of the merge: the index of its map, and an entry. -/
abbrev VersionItem (File HashDigest Marker : Type) :=
  ℕ × ValidVersion × Option (PrioritizedDist File HashDigest Marker)

/-- The comparison of the merge. -/
def VersionItem.first (highest : Bool) (item other : VersionItem File HashDigest Marker) : Bool :=
  match compare item.2.1 other.2.1 with
  | .eq => item.1 < other.1
  | .lt => !highest
  | .gt => highest

namespace CandidateSelector

variable {Name : Type}

/-- The latest version is selected, except to check the lower bounds. -/
def useHighestVersion (self : CandidateSelector Name) (packageName : Name) : Bool :=
  match self.resolutionStrategy with
  | .highest => true
  | .lowest => false
  | .lowestDirect directDependencies => !directDependencies packageName

/-- Pre-releases may be necessary where there is no stable version. -/
def allowPrerelease {Dist : Type} (self : CandidateSelector Name) (packageName : Name)
    (versionMaps : List (VersionMap Dist)) : Bool :=
  match self.prereleaseStrategy packageName with
  | .yes => true
  | .no => false
  | .ifNecessary => !versionMaps.any VersionMap.stable

/-- The entries of one map, the version to be tried first before the others. -/
def entries {Dist : Type} (highest : Bool) (range : VersionRange) (map : VersionMap Dist) :
    List (ValidVersion × Option Dist) :=
  if highest then (map.iter range.val).reverse else map.iter range.val

/-- `kmergeBy` merges sorted lists. -/
def selectNoPreference
    (kmergeBy : (VersionItem File HashDigest Marker → VersionItem File HashDigest Marker → Bool) →
      List (List (VersionItem File HashDigest Marker)) → List (VersionItem File HashDigest Marker))
    (self : CandidateSelector Name) (packageName : Name) (range : VersionRange)
    (versionMaps : List (VersionMap (PrioritizedDist File HashDigest Marker))) :
    Option (Candidate Name File HashDigest Marker) :=
  let highest := self.useHighestVersion packageName
  let allowPrerelease := self.allowPrerelease packageName versionMaps
  if self.indexStrategy = .unsafeBestMatch then
    selectCandidate packageName range allowPrerelease none
      ((kmergeBy (VersionItem.first highest) (versionMaps.zipIdx.map fun indexed =>
        (entries highest range indexed.1).map fun entry => (indexed.2, entry))).map Prod.snd)
  else
    versionMaps.findSome? fun map =>
      selectCandidate packageName range allowPrerelease none (entries highest range map)

end CandidateSelector

end Uv.Resolver
