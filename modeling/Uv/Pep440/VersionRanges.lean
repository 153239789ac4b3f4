import Uv.Core.RangesModel
import Uv.Pep440.VersionSpecifier

/-!
# Specifiers as version ranges

The resolver and the markers do not ask a specifier about single versions; they
turn it into a set of versions.  `ofSpecifier` uses PEP 440 semantics,
`releaseSpecifierToRange` compares releases only.  `none` stands for a panic.

The exclusive comparisons `<V` and `>V` leave out the pre-, post- and local
releases of `V`.  `contains` does this by cases; the ranges do it by artificial
bounds.  The last part says exactly where the two differ.
-/

namespace Uv.Pep440

open Uv.Core Uv.Core.Order

/-! ## The conversions -/

/-- The release with its last segment incremented. -/
def bumpLast (release : List ℕ) : Option (List ℕ) :=
  release.getLast?.map fun last => release.dropLast ++ [u64Succ last]

section Conversions

variable [RangeOps ValidVersion]

namespace VersionSpecifier

/-- `==V`: a version without local segments stands for all of its local
versions. -/
def equalRange (version : ValidVersion) : Option (Ranges ValidVersion) :=
  match version.val.localVersion with
  | .segments [] => some (.between version (version.withLocal .max))
  | .segments _ => some (.singleton version)
  | .max => none

/-- The first version after everything that starts with `low`. -/
def starUpper (low : ValidVersion) : Option ValidVersion :=
  match low.val.post, low.val.pre with
  | some post, _ => some (low.withPost (some (u64Succ post)))
  | none, some pre =>
      some (low.withPre (some { pre with number := u64Succ pre.number }))
  | none, none => (bumpLast low.val.release).map low.withRelease

def equalStarRange (version : ValidVersion) : Option (Ranges ValidVersion) :=
  let low := version.withDev (some 0)
  (starUpper low).map fun high =>
    .fromRangeBounds (.included low) (.excluded high)

/-- `V.N` with `N` dropped and the segment before it incremented. -/
def tildeUpper (version : ValidVersion) : Option ValidVersion :=
  (bumpLast version.val.release.dropLast).map ValidVersion.new

/-- `From<VersionSpecifier> for Ranges<Version>`. -/
def toRange (specifier : VersionSpecifier) : Option (Ranges ValidVersion) :=
  let version := specifier.version
  match specifier.operator with
  | .equal => equalRange version
  | .exactEqual => some (.singleton version)
  | .notEqual => (equalRange version).map RangeOps.complement
  | .tildeEqual => (tildeUpper version).map fun upper =>
      .fromRangeBounds (.included version)
        (.excluded ((upper.withEpoch version.val.epoch).withDev (some 0)))
  | .lessThan =>
      if version.val.anyPrerelease then some (.strictlyLowerThan version)
      else some (.strictlyLowerThan version.withMinZero)
  | .lessThanEqual => some (.lowerThan (version.withLocal .max))
  | .greaterThan =>
      match version.val.dev, version.val.post with
      | some dev, _ =>
          some (.higherThan (version.withDev (some (u64Succ dev))))
      | none, some post =>
          some (.higherThan (version.withPost (some (u64Succ post))))
      | none, none => some (.strictlyHigherThan version.withMaxZero)
  | .greaterThanEqual => some (.higherThan version)
  | .equalStar => equalStarRange version
  | .notEqualStar => (equalStarRange version).map RangeOps.complement

/-- `From<VersionSpecifiers> for Ranges<Version>`. -/
def specifiersToRange (specifiers : List VersionSpecifier) :
    Option (Ranges ValidVersion) :=
  specifiers.foldlM (fun range specifier => do
    let next ← specifier.toRange
    pure (RangeOps.intersection range next)) .full

/-- `release_specifier_to_range`: the range a specifier stands for when only
releases are compared.  Trailing zeros are trimmed for markers. -/
def releaseSpecifierToRange (specifier : VersionSpecifier) (trim : Bool) :
    Option (Ranges ValidVersion) :=
  let version := specifier.version
  let versionTrimmed :=
    if trim then version.onlyReleaseTrimmed else version.onlyRelease
  let starRange := (bumpLast version.onlyRelease.val.release).map fun release =>
    Ranges.fromRangeBounds (.included version)
      (.excluded (version.onlyRelease.withRelease release))
  match specifier.operator with
  | .equal => some (.singleton versionTrimmed)
  | .exactEqual => some (.singleton versionTrimmed)
  | .notEqual => some (RangeOps.complement (.singleton versionTrimmed))
  | .lessThan => some (.strictlyLowerThan versionTrimmed)
  | .lessThanEqual => some (.lowerThan versionTrimmed)
  | .greaterThan => some (.strictlyHigherThan versionTrimmed)
  | .greaterThanEqual => some (.higherThan versionTrimmed)
  | .tildeEqual => (tildeUpper version).map fun upper =>
      .fromRangeBounds (.included versionTrimmed) (.excluded upper)
  | .equalStar => starRange
  | .notEqualStar => starRange.map RangeOps.complement

end VersionSpecifier

end Conversions

end Uv.Pep440
