import Uv.Pep440.VersionRanges

/-!
# Specifiers for an interval of releases

The way back from an interval of releases to specifiers.  An end with local
segments has no specifier; the source panics there, and `none` stands for it.
-/

namespace Uv.Pep440

open Uv.Core

namespace VersionSpecifier

def fromLowerBound : Bound ValidVersion → Option (List VersionSpecifier)
  | .included version => (fromVersion .greaterThanEqual version).toOption.map ([·])
  | .excluded version => (fromVersion .greaterThan version).toOption.map ([·])
  | .unbounded => some []

def fromUpperBound : Bound ValidVersion → Option (List VersionSpecifier)
  | .included version => (fromVersion .lessThanEqual version).toOption.map ([·])
  | .excluded version => (fromVersion .lessThan version).toOption.map ([·])
  | .unbounded => some []

/-- One specifier for each end that is bounded. -/
def fromBothBounds (start stop : Bound ValidVersion) : Option (List VersionSpecifier) := do
  return (← fromLowerBound start) ++ (← fromUpperBound stop)

/-- The releases from `V` up to the next one at the last segment of `V` are `V.*`; a
release of one segment stands for the first minor release. -/
def starRelease (start stop : List ℕ) : Option ValidVersion :=
  match start with
  | [major] => if stop = [major, 1] then some (.new [major, 0]) else none
  | [major, minor] => if stop = [major, u64Succ minor] then some (.new [major, minor]) else none
  | _ => none

/-- The specifiers that together stand for an interval of releases. -/
def fromReleaseOnlyBounds (bounds : Bound ValidVersion × Bound ValidVersion) :
    Option (List VersionSpecifier) :=
  match bounds with
  | (.included start, .included stop) =>
      if compare start stop == .eq then some [equalsVersion start]
      else fromBothBounds (.included start) (.included stop)
  | (.included start, .excluded stop) =>
      match starRelease start.val.onlyReleaseTrimmed.release
          stop.val.onlyReleaseTrimmed.release with
      | some version => some [equalsStarVersion version]
      | none => fromBothBounds (.included start) (.excluded stop)
  | (start, stop) => fromBothBounds start stop

theorem fromLowerBound_eq_nil {start : Bound ValidVersion}
    (hempty : fromLowerBound start = some []) : start = .unbounded := by
  cases start with
  | included version => simp [fromLowerBound] at hempty
  | excluded version => simp [fromLowerBound] at hempty
  | unbounded => rfl

theorem fromUpperBound_eq_nil {stop : Bound ValidVersion}
    (hempty : fromUpperBound stop = some []) : stop = .unbounded := by
  cases stop with
  | included version => simp [fromUpperBound] at hempty
  | excluded version => simp [fromUpperBound] at hempty
  | unbounded => rfl

theorem fromBothBounds_eq_nil {start stop : Bound ValidVersion}
    (hempty : fromBothBounds start stop = some []) :
    (start, stop) = (.unbounded, .unbounded) := by
  simp only [fromBothBounds, Option.bind_eq_bind, Option.bind_eq_some_iff, Option.pure_def,
    Option.some.injEq, List.append_eq_nil_iff] at hempty
  obtain ⟨_, hlower, _, hupper, rfl, rfl⟩ := hempty
  rw [fromLowerBound_eq_nil hlower, fromUpperBound_eq_nil hupper]

/-- Only the interval of all releases has no specifier. -/
theorem fromReleaseOnlyBounds_eq_nil {bounds : Bound ValidVersion × Bound ValidVersion}
    (hempty : fromReleaseOnlyBounds bounds = some []) : bounds = (.unbounded, .unbounded) := by
  unfold fromReleaseOnlyBounds at hempty
  split at hempty
  · split at hempty
    · simp at hempty
    · exact fromBothBounds_eq_nil hempty
  · split at hempty
    · simp at hempty
    · exact fromBothBounds_eq_nil hempty
  · exact fromBothBounds_eq_nil hempty

end VersionSpecifier

end Uv.Pep440
