import Uv.DistributionFilename.WheelTag
import Uv.Pep508.PythonVersion
import Uv.Resolver.PythonFork

/-!
# Wheels outside a Python requirement

A wheel whose tags are for Python versions outside the range of a requirement is
dropped.  The tags have a minor version only, so the bounds are cut to their first two
numbers before they are compared.  An upper bound right after the start of a minor
version, such as `<3.10.0.1`, loses that start.
-/

namespace Uv.Resolver

open Uv.Core Uv.Core.Order Uv.Core.OrdKey Uv.Pep440 Uv.PlatformTags Uv.DistributionFilename

/-! ## Bounds -/

/-- The first two numbers of a release. -/
def majorMinor (version : ValidVersion) : ValidVersion :=
  .new (version.val.release.take 2)

/-- `LowerBound::major_minor`. -/
def lowerMajorMinor : Bound ValidVersion → Bound ValidVersion
  | .included version => .included (majorMinor version)
  | .excluded version => .included (majorMinor version)
  | .unbounded => .unbounded

/-- `UpperBound::major_minor`. -/
def upperMajorMinor : Bound ValidVersion → Bound ValidVersion
  | .included version => .included (majorMinor version)
  | .excluded version =>
      if version.val.release[2]?.any (0 < ·) then .included (majorMinor version)
      else .excluded (majorMinor version)
  | .unbounded => .unbounded

/-- `Ord for UpperBound`. -/
def compareUpperBound : Bound ValidVersion → Bound ValidVersion → Ordering
  | .unbounded, .unbounded => .eq
  | .included _, .unbounded => .lt
  | .excluded _, .unbounded => .lt
  | .unbounded, .included _ => .gt
  | .included left, .included right => compare left right
  | .excluded left, .included right =>
      match compare left right with
      | .lt => .lt
      | .eq => .lt
      | .gt => .gt
  | .unbounded, .excluded _ => .gt
  | .included left, .excluded right =>
      match compare left right with
      | .lt => .lt
      | .eq => .gt
      | .gt => .gt
  | .excluded left, .excluded right => compare left right

/-! ## The filter -/

namespace RequiresPythonRange

/-- Ex) If the wheel bound is `3.6`, then it doesn't match `>=3.10`. -/
def startsAfter (range : RequiresPythonRange) (minor : ℕ) : Bool :=
  compareLowerBound (.included (.new [3, minor])) (lowerMajorMinor range.lower) == .lt

/-- Ex) If the wheel bound is `3.12`, then it doesn't match `<=3.10.`. -/
def endsBefore (range : RequiresPythonRange) (minor : ℕ) : Bool :=
  compareUpperBound (.included (.new [3, minor])) (upperMajorMinor range.upper) == .gt

/-- A tag for exactly this minor version. -/
def matchesMinor (range : RequiresPythonRange) (minor : ℕ) : Bool :=
  !range.startsAfter minor && !range.endsBefore minor

/-- A Python tag of a wheel without an ABI. -/
def matchesPythonTag (range : RequiresPythonRange) : LanguageTag → Bool
  | .python 2 _ | .cpython 2 _ | .pypy 2 _ | .graalpy 2 _ | .pyston 2 _ => false
  -- The version of a generic tag is a lower bound.
  | .python 3 (some minor) => !range.endsBefore minor
  | .cpython 3 minor | .pypy 3 minor | .graalpy 3 minor | .pyston 3 minor =>
      range.matchesMinor minor
  | _ => true

def matchesAbiTag (range : RequiresPythonRange) (pythonTags : List LanguageTag) : AbiTag → Bool
  | .abi3 => true
  | .none => pythonTags.any range.matchesPythonTag
  | .cpython _ 2 _ | .pypy none _ _ | .pypy (some (2, _)) _ _ | .graalpy (2, _) _ _ => false
  | .cpython _ 3 minor | .pypy (some (3, minor)) _ _ | .graalpy (3, minor) _ _ =>
      range.matchesMinor minor
  | _ => true

/-- `RequiresPython::matches_wheel_tag`. -/
def matchesWheelTag (range : RequiresPythonRange) (wheel : WheelFilename) : Bool :=
  wheel.tags.abiTags.any (range.matchesAbiTag wheel.tags.pythonTags)

end RequiresPythonRange

/-! ## Releases of a minor version -/

/-- The release belongs to the minor version. -/
def OfMinor (version : ValidVersion) (major minor : ℕ) : Prop :=
  version.val.release.headD 0 = major ∧ version.val.release.tail.headD 0 = minor

theorem trimZeros_take_two (numbers : List ℕ) :
    trimZeros (numbers.take 2) = trimZeros [numbers.headD 0, numbers.tail.headD 0] := by
  rw [Pep508.trimZeros_split]
  rcases numbers with _ | ⟨first, _ | ⟨second, rest⟩⟩ <;> rfl

/-- A release of an earlier minor version is earlier. -/
theorem trimZeros_lt_of_minor_lt {left right : List ℕ}
    (hlt : left.headD 0 < right.headD 0 ∨
      left.headD 0 = right.headD 0 ∧ left.tail.headD 0 < right.tail.headD 0) :
    trimZeros left < trimZeros right := by
  rw [Pep508.trimZeros_split left, Pep508.trimZeros_split right, trimZeros_cons_lt,
    trimZeros_cons_lt]
  rcases hlt with hmajor | ⟨hmajor, hminor⟩
  · exact .inl hmajor
  · exact .inr ⟨hmajor, .inl hminor⟩

theorem IsRelease.key_new {version : ValidVersion} (hrelease : IsRelease version) :
    key version = key (ValidVersion.new version.val.release) := by
  rw [← Bound.compare_eq_eq.mp hrelease, ← key_trimmed_new, onlyReleaseTrimmed_new,
    onlyReleaseTrimmed_eq]

theorem IsRelease.lt_iff {left right : ValidVersion} (hleft : IsRelease left)
    (hright : IsRelease right) : key left < key right ↔
      trimZeros left.val.release < trimZeros right.val.release := by
  rw [hleft.key_new, hright.key_new, key_new_lt]

theorem key_majorMinor (version : ValidVersion) : key (majorMinor version) =
    key (ValidVersion.new [version.val.release.headD 0, version.val.release.tail.headD 0]) := by
  rw [majorMinor, Pep440.key_new, Pep440.key_new, trimZeros_take_two]

/-- Where a minor version lies against the first two numbers of a release. -/
theorem minor_lt_majorMinor_iff {version : ValidVersion} {major minor : ℕ} :
    key (ValidVersion.new [major, minor]) < key (majorMinor version) ↔
      major < version.val.release.headD 0 ∨
        major = version.val.release.headD 0 ∧ minor < version.val.release.tail.headD 0 := by
  rw [key_majorMinor, key_new_lt, Pep508.lt_minor_iff]
  rfl

theorem majorMinor_lt_minor_iff {version : ValidVersion} {major minor : ℕ} :
    key (majorMinor version) < key (ValidVersion.new [major, minor]) ↔
      version.val.release.headD 0 < major ∨
        version.val.release.headD 0 = major ∧ version.val.release.tail.headD 0 < minor := by
  rw [key_majorMinor, key_new_lt, Pep508.lt_minor_iff]
  rfl

/-! ## Where the filter errs -/

/-- The bound lies after the start of the minor version and before its first patch. -/
def CutsFirstPatch (upper : Bound ValidVersion) (minor : ℕ) : Prop :=
  ∃ version rest, upper = .excluded version ∧
    version.val.release = 3 :: minor :: 0 :: rest ∧ ∃ n ∈ rest, n ≠ 0

section Member

variable {range : RequiresPythonRange} {version bound : ValidVersion} {minor : ℕ}

theorem not_minor_lt_majorMinor (hrelease : IsRelease version)
    (hminor : OfMinor version 3 minor) (hbound : IsRelease bound)
    (hle : key bound ≤ key version) :
    ¬ key (ValidVersion.new [3, minor]) < key (majorMinor bound) := by
  intro hlt
  rw [minor_lt_majorMinor_iff, ← hminor.1, ← hminor.2] at hlt
  exact hle.not_gt ((hrelease.lt_iff hbound).mpr (trimZeros_lt_of_minor_lt hlt))

theorem not_majorMinor_lt_minor (hrelease : IsRelease version)
    (hminor : OfMinor version 3 minor) (hbound : IsRelease bound)
    (hle : key version ≤ key bound) :
    ¬ key (majorMinor bound) < key (ValidVersion.new [3, minor]) := by
  intro hlt
  rw [majorMinor_lt_minor_iff, ← hminor.1, ← hminor.2] at hlt
  exact hle.not_gt ((hbound.lt_iff hrelease).mpr (trimZeros_lt_of_minor_lt hlt))

/-- A bound after a release of the minor version starts no later, or has a patch. -/
theorem patch_of_minor_eq (hrelease : IsRelease version) (hminor : OfMinor version 3 minor)
    (hbound : IsRelease bound) (hlt : key version < key bound)
    (hnot : ¬ key (ValidVersion.new [3, minor]) < key (majorMinor bound)) :
    ∃ patch rest, bound.val.release = 3 :: minor :: patch :: rest ∧
      trimZeros (patch :: rest) ≠ [] := by
  have hstart : ¬ trimZeros version.val.release < trimZeros [3, minor] := by
    rw [Pep508.lt_minor_iff, hminor.1, hminor.2]
    omega
  have hafter := (not_lt.mp hstart).trans_lt ((hrelease.lt_iff hbound).mp hlt)
  rw [Pep508.minor_lt_iff] at hafter
  rw [minor_lt_majorMinor_iff] at hnot
  obtain ⟨hfirst, hsecond, hpatch⟩ : 3 = bound.val.release.headD 0 ∧
      minor = bound.val.release.tail.headD 0 ∧ ¬ Pep508.NoPatch bound.val.release := by
    tauto
  rcases hnumbers : bound.val.release with _ | ⟨first, _ | ⟨second, _ | ⟨patch, rest⟩⟩⟩ <;>
    rw [hnumbers] at hfirst hsecond hpatch
  · exact absurd rfl hpatch
  · exact absurd rfl hpatch
  · exact absurd rfl hpatch
  · obtain rfl : 3 = first := hfirst
    obtain rfl : minor = second := hsecond
    exact ⟨patch, rest, rfl, hpatch⟩

/-- No requirement is found to start after a minor version that it has a release of. -/
theorem startsAfter_eq_false (hrange : range.Released) (hrelease : IsRelease version)
    (hminor : OfMinor version 3 minor) (hbetween : range.Between version) :
    range.startsAfter minor = false := by
  obtain ⟨lower, upper⟩ := range
  obtain ⟨hlower, -⟩ := hrange
  obtain ⟨hbelow, -⟩ := hbetween
  cases lower with
  | included start =>
      have hle := Bound.compare_isLE.mp hbelow
      have hnot := not_minor_lt_majorMinor hrelease hminor hlower hle
      simpa [RequiresPythonRange.startsAfter, lowerMajorMinor, compareLowerBound,
        Bound.compare_eq_lt] using not_lt.mp hnot
  | excluded start =>
      have hlt := Bound.compare_eq_lt.mp (beq_iff_eq.mp hbelow)
      have hnot := not_minor_lt_majorMinor hrelease hminor hlower hlt.le
      simpa [RequiresPythonRange.startsAfter, lowerMajorMinor, compareLowerBound,
        Bound.compare_eq_lt] using not_lt.mp hnot
  | unbounded => rfl

theorem compare_included_gt {left right : ValidVersion} :
    (compareUpperBound (.included left) (.included right) == .gt) = true ↔
      key right < key left := by
  rw [beq_iff_eq, compareUpperBound, compare_eq, linearCmp_eq_gt]

theorem compare_excluded_gt {left right : ValidVersion} :
    (compareUpperBound (.included left) (.excluded right) == .gt) = true ↔
      ¬ key left < key right := by
  rw [← Bound.compare_eq_lt, compareUpperBound]
  cases compare left right <;> decide

/-- A requirement is found to end before a minor version that it has a release of just
when only the start of the version is left. -/
theorem endsBefore_iff (hrange : range.Released) (hrelease : IsRelease version)
    (hminor : OfMinor version 3 minor) (hbetween : range.Between version) :
    range.endsBefore minor = true ↔ CutsFirstPatch range.upper minor := by
  obtain ⟨lower, upper⟩ := range
  obtain ⟨-, hupper⟩ := hrange
  obtain ⟨-, habove⟩ := hbetween
  cases upper with
  | included stop =>
      have hle := Bound.compare_isLE.mp habove
      refine iff_of_false ?_ ?_
      · exact compare_included_gt.not.mpr (not_majorMinor_lt_minor hrelease hminor hupper hle)
      · rintro ⟨_, _, heq, -⟩
        cases heq
  | excluded stop =>
      have hlt := Bound.compare_eq_lt.mp (beq_iff_eq.mp habove)
      rw [RequiresPythonRange.endsBefore, upperMajorMinor]
      split
      · rename_i hpatch
        refine iff_of_false ?_ ?_
        · exact compare_included_gt.not.mpr
            (not_majorMinor_lt_minor hrelease hminor hupper hlt.le)
        · rintro ⟨_, rest, heq, hnumbers, -⟩
          cases heq
          simp [hnumbers] at hpatch
      · rename_i hpatch
        rw [compare_excluded_gt]
        constructor
        · intro hnot
          obtain ⟨patch, rest, hnumbers, hnonzero⟩ :=
            patch_of_minor_eq hrelease hminor hupper hlt hnot
          obtain rfl : patch = 0 := by simpa [hnumbers] using hpatch
          refine ⟨stop, rest, rfl, hnumbers, ?_⟩
          simpa [trimZeros_eq_nil] using hnonzero
        · rintro ⟨_, rest, heq, hnumbers, -⟩
          cases heq
          rw [minor_lt_majorMinor_iff, hnumbers]
          simp
  | unbounded =>
      refine iff_of_false (by simp [RequiresPythonRange.endsBefore, upperMajorMinor,
        compareUpperBound]) ?_
      rintro ⟨_, _, heq, -⟩
      cases heq

/-- A requirement that ends before a minor version ends before the later ones. -/
theorem endsBefore_mono {earlier : ℕ} (hle : earlier ≤ minor)
    (hends : range.endsBefore earlier = true) : range.endsBefore minor = true := by
  have hkey : key (ValidVersion.new [3, earlier]) ≤ key (ValidVersion.new [3, minor]) := by
    rw [← not_lt, key_new_lt, Pep508.lt_minor_iff]
    simpa using hle
  obtain ⟨lower, upper⟩ := range
  cases upper with
  | included stop => exact compare_included_gt.mpr ((compare_included_gt.mp hends).trans_le hkey)
  | excluded stop =>
      rw [RequiresPythonRange.endsBefore, upperMajorMinor] at hends ⊢
      split at hends
      · rename_i hpatch
        rw [if_pos hpatch]
        exact compare_included_gt.mpr ((compare_included_gt.mp hends).trans_le hkey)
      · rename_i hpatch
        rw [if_neg hpatch]
        rw [compare_excluded_gt] at hends ⊢
        exact fun hlt => hends (hkey.trans_lt hlt)
  | unbounded => exact hends

/-- A tag for exactly the minor version is dropped only when the start alone is left. -/
theorem matchesMinor_iff (hrange : range.Released) (hrelease : IsRelease version)
    (hminor : OfMinor version 3 minor) (hbetween : range.Between version) :
    range.matchesMinor minor = true ↔ ¬ CutsFirstPatch range.upper minor := by
  rw [RequiresPythonRange.matchesMinor, startsAfter_eq_false hrange hrelease hminor hbetween,
    ← endsBefore_iff hrange hrelease hminor hbetween]
  simp

end Member

/-! ## Wheels for a minor version -/

/-- The tags of CPython, PyPy or GraalPy at this minor version. -/
inductive Interpreter (minor : ℕ) : LanguageTag → AbiTag → Prop where
  | cpython (gilDisabled : Bool) :
      Interpreter minor (.cpython 3 minor) (.cpython gilDisabled 3 minor)
  | pypy (major patch : ℕ) :
      Interpreter minor (.pypy 3 minor) (.pypy (some (3, minor)) major patch)
  | graalpy (major patch : ℕ) :
      Interpreter minor (.graalpy 3 minor) (.graalpy (3, minor) major patch)

/-- The wheel runs on the minor version by its tags: it has those of an interpreter, or
no ABI and a generic tag that is not later. -/
inductive RunsOn (minor : ℕ) (wheel : WheelFilename) : Prop where
  | interpreter {python : LanguageTag} {abi : AbiTag} (hpython : wheel.tags.pythonTags = [python])
      (habi : wheel.tags.abiTags = [abi]) (hexact : Interpreter minor python abi)
  | generic {earlier : ℕ} (hle : earlier ≤ minor) (habi : .none ∈ wheel.tags.abiTags)
      (hpython : .python 3 (some earlier) ∈ wheel.tags.pythonTags)

theorem Interpreter.matchesAbiTag_eq {range : RequiresPythonRange} {minor : ℕ}
    {python : LanguageTag} {abi : AbiTag} (hexact : Interpreter minor python abi)
    (pythonTags : List LanguageTag) :
    range.matchesAbiTag pythonTags abi = range.matchesMinor minor := by
  cases hexact <;> rfl

/-- A requirement with a release of the minor version accepts the wheels for it, unless its
upper bound lies between the start of the version and its first patch. -/
theorem RequiresPythonRange.matchesWheelTag_iff {range : RequiresPythonRange} {minor : ℕ}
    (hrange : range.Released)
    (hmember : ∃ version, IsRelease version ∧ OfMinor version 3 minor ∧ range.Between version) :
    (∀ wheel, RunsOn minor wheel → range.matchesWheelTag wheel = true) ↔
      ¬ CutsFirstPatch range.upper minor := by
  obtain ⟨version, hrelease, hminor, hbetween⟩ := hmember
  have hmatches := matchesMinor_iff hrange hrelease hminor hbetween
  have hends := endsBefore_iff hrange hrelease hminor hbetween
  constructor
  · intro haccepts
    have hexact : Interpreter minor _ _ := .cpython false
    have hwheel := haccepts ⟨⟨"foo".toList, by decide⟩, .new [1],
      .small ⟨.cpython 3 minor, .cpython false 3 minor, .any⟩⟩ (.interpreter rfl rfl hexact)
    rw [matchesWheelTag] at hwheel
    simpa [WheelTag.abiTags, hexact.matchesAbiTag_eq, hmatches] using hwheel
  · intro hcuts wheel hruns
    rw [matchesWheelTag, List.any_eq_true]
    cases hruns with
    | @interpreter python abi hpython habi hexact =>
        refine ⟨abi, by simp [habi], ?_⟩
        rw [hexact.matchesAbiTag_eq, hmatches]
        exact hcuts
    | @generic earlier hle habi hpython =>
        refine ⟨.none, habi, List.any_eq_true.mpr ⟨_, hpython, ?_⟩⟩
        rw [matchesPythonTag, Bool.not_eq_true', ← Bool.not_eq_true]
        exact fun hearlier => hcuts (hends.mp (endsBefore_mono hle hearlier))

/-- `>=3.8,<3.10.1` accepts every wheel for `3.10`. -/
theorem RequiresPythonRange.matchesWheelTag_iff_patch :
    let range : RequiresPythonRange :=
      ⟨.included (.new [3, 8]), .excluded (.new [3, 10, 1])⟩
    ∀ wheel, RunsOn 10 wheel → range.matchesWheelTag wheel = true := by
  intro range
  have hmember : ∃ version, IsRelease version ∧ OfMinor version 3 10 ∧ range.Between version :=
    ⟨.new [3, 10], rfl, ⟨rfl, rfl⟩, rfl, rfl⟩
  have hreleased : range.Released := ⟨rfl, rfl⟩
  refine (matchesWheelTag_iff hreleased hmember).mpr ?_
  rintro ⟨version, rest, heq, hnumbers, -⟩
  cases heq
  rw [release_new] at hnumbers
  cases hnumbers

/-- `<3.10.0.1` has the release `3.10`, and a wheel for `3.10` is dropped. -/
theorem RequiresPythonRange.matchesWheelTag_cutsFirstPatch :
    let range : RequiresPythonRange := ⟨.unbounded, .excluded (.new [3, 10, 0, 1])⟩
    let wheel : WheelFilename := ⟨⟨"foo".toList, by decide⟩, .new [1],
      .small ⟨.cpython 3 10, .cpython false 3 10, .any⟩⟩
    range.Released ∧ (∃ version, IsRelease version ∧ OfMinor version 3 10 ∧
      range.Between version) ∧ RunsOn 10 wheel ∧ range.matchesWheelTag wheel = false :=
  ⟨⟨trivial, rfl⟩, ⟨.new [3, 10], rfl, ⟨rfl, rfl⟩, rfl, rfl⟩,
    .interpreter rfl rfl (.cpython false), rfl⟩

end Uv.Resolver
