import Uv.Pep508.PythonVersion

/-!
# Lists of Python versions

A list on `python_version` is lowered one version at a time, each as if it stood
in a comparison with `==`.  The intervals of all of them are collected, and
`not in` takes the complement.
-/

namespace Uv.Pep508

open Uv.Core Uv.Core.Order Uv.Pep440

/-- The major and minor version, without what follows, is one of the versions. -/
def listed (versions : List ValidVersion) (numbers : List ℕ) : Bool :=
  versions.any fun version => (majorMinor numbers).val.beq version.onlyRelease.val

/-- A version that may equal a major and minor version, and whose minor version has a successor. -/
structure MinorRelease (version : ValidVersion) : Prop where
  release_ne_nil : version.val.release ≠ []
  next : ∀ number ∈ version.val.release.take 2, number < u64Max
  patch : ∀ number ∈ version.val.release.drop 2, number = 0

theorem beq_onlyRelease_iff {version : ValidVersion} {numbers : List ℕ} :
    (majorMinor numbers).val.beq version.onlyRelease.val = true ↔
      trimZeros [numbers.headD 0, numbers.tail.headD 0] = trimZeros version.val.release := by
  rw [Version.beq_iff (ValidVersion.valid _) (ValidVersion.valid _), ← not_iff_not, ← ne_eq,
    ← ne_eq, ne_iff_lt_or_gt, ne_iff_lt_or_gt]
  exact not_iff_not.mp (not_iff_not.mpr (or_congr key_new_lt key_new_lt))

section Lists

variable [RangeOps ValidVersion]

/-- The intervals hold the releases of which the property holds. -/
def Covers (segments : List (Bound ValidVersion × Bound ValidVersion))
    (holds : List ℕ → Prop) : Prop :=
  ∀ numbers, (∃ segment ∈ segments, Between (cutsOf segment) (Cut.before (.new numbers))) ↔
    holds numbers

theorem pythonVersionSegments_spec {version : ValidVersion} (hversion : MinorRelease version) :
    ∃ segments, Edges.pythonVersionSegments version = some (.ok segments) ∧
      Covers segments fun numbers =>
        (majorMinor numbers).val.beq version.onlyRelease.val = true := by
  have hnoPatch : NoPatch version.val.release := by
    rw [NoPatch, trimZeros_eq_nil, ← List.drop_one, ← List.drop_one, List.drop_drop]
    exact hversion.patch
  rcases trimmed_cases hversion.release_ne_nil with
    ⟨major, minor, hmatch, hsame⟩ | ⟨⟨major, minor, rest, hrelease, hpatch⟩, -⟩
  swap
  · exact (hpatch hnoPatch).elim
  have hminor : minor < u64Max := by
    rcases hmatch with ⟨-, rfl⟩ | ⟨-, hmem⟩
    · decide
    · exact hversion.next minor hmem
  have hfull : Edges.pythonVersionToFullVersion (.equalsVersion version.onlyRelease) =
      some (.ok (.equalsStarVersion (.new [major, minor]))) := by
    change Edges.pythonVersionToFullVersion ⟨.equal, .new version.val.release, _⟩ = _
    unfold Edges.pythonVersionToFullVersion
    rcases hmatch with ⟨hmatch, rfl⟩ | ⟨hmatch, -⟩ <;> rw [hmatch] <;> rfl
  obtain ⟨range, hrange, hcontains⟩ :
      Stands (.equalsStarVersion (.new [major, minor])) fun numbers =>
        numbers.headD 0 = major ∧ numbers.tail.headD 0 = minor := stands_minorStar hminor
  have honly : (VersionSpecifier.equalsStarVersion (.new [major, minor])).onlyRelease =
      .equalsStarVersion (.new [major, minor]) := by
    simp only [VersionSpecifier.equalsStarVersion, VersionSpecifier.onlyRelease, onlyRelease_new]
  rw [honly] at hrange
  refine ⟨range.segments, ?_, fun numbers => ?_⟩
  · simp only [Edges.pythonVersionSegments, hfull, hrange, Option.bind_eq_bind, Option.bind_some]
  · refine Iff.trans ?_ (beq_onlyRelease_iff.trans (minor_eq_iff hsame numbers)).symm
    refine Iff.trans ?_ (hcontains numbers)
    rw [Ranges.contains_iff, Ranges.Mem]
    simp only [List.mem_map, exists_exists_and_eq_and]

theorem pythonVersionsSegments_spec {versions : List ValidVersion}
    (hversions : ∀ version ∈ versions, MinorRelease version) :
    ∃ segments, Edges.pythonVersionsSegments versions = some (.ok segments) ∧
      Covers segments fun numbers => listed versions numbers = true := by
  induction versions with
  | nil => exact ⟨[], rfl, fun numbers => by simp [listed]⟩
  | cons version rest ih =>
      rw [List.forall_mem_cons] at hversions
      obtain ⟨segments, hsegments, hcovers⟩ := pythonVersionSegments_spec hversions.1
      obtain ⟨more, hmore, hcoversMore⟩ := ih hversions.2
      refine ⟨segments ++ more, ?_, fun numbers => ?_⟩
      · simp only [Edges.pythonVersionsSegments, hsegments, hmore, Option.bind_eq_bind,
          Option.bind_some]
      · have hlisted : listed (version :: rest) numbers = true ↔
            (majorMinor numbers).val.beq version.onlyRelease.val = true ∨
              listed rest numbers = true := Bool.or_eq_true_iff
        refine Iff.trans ?_ hlisted.symm
        simp only [List.mem_append, or_and_right, exists_or]
        exact or_congr (hcovers numbers) (hcoversMore numbers)

theorem fromPythonVersions_spec {versions : List ValidVersion} (operator : ContainerOperator)
    (hversions : ∀ version ∈ versions, MinorRelease version) :
    ∃ range, Edges.fromPythonVersions versions operator =
      some (.ok (.version (Edges.fromRange range))) ∧ range.Valid ∧
        ∀ numbers, range.contains (.new numbers) =
          (listed versions numbers != (operator == .notIn)) := by
  obtain ⟨segments, hsegments, hcovers⟩ := pythonVersionsSegments_spec hversions
  have hvalid : (RangeOps.collect segments : Ranges ValidVersion).Valid :=
    RangeOps.valid_collect segments
  have hcontains : ∀ numbers, (RangeOps.collect segments : Ranges ValidVersion).contains
      (.new numbers) = true ↔ listed versions numbers = true := by
    intro numbers
    rw [Ranges.contains_iff, RangeOps.mem_collect]
    exact hcovers numbers
  refine ⟨Edges.negatedIf operator (RangeOps.collect segments), ?_,
    Edges.valid_negatedIf operator hvalid, fun numbers => ?_⟩
  · simp only [Edges.fromPythonVersions, hsegments, Option.bind_eq_bind, Option.bind_some]
  · cases operator with
    | isIn =>
        have hsame : (ContainerOperator.isIn == .notIn) = false := rfl
        rw [Bool.eq_iff_iff, hsame, Bool.bne_false]
        exact hcontains numbers
    | notIn =>
        have hsame : (ContainerOperator.notIn == .notIn) = true := rfl
        rw [Bool.eq_iff_iff, hsame, Bool.bne_true, Bool.not_eq_true', ← Bool.not_eq_true,
          ← hcontains, Ranges.contains_iff, Ranges.contains_iff]
        exact RangeOps.mem_complement hvalid _

variable [RangeOps Text] {s : Interner}

open Interner Resolver.PythonRequirement

/-- A list on `python_version` applies where the major and minor version is listed, and a negated
one where it is not. -/
theorem evaluate_pythonVersionIn (hreach : Reachable s) {versions : List ValidVersion}
    {operator : ContainerOperator} (hversions : ∀ version ∈ versions, MinorRelease version)
    {env : MarkerEnvironment} {numbers : List ℕ} (henv : env.pythonFullVersion = .new numbers)
    (extras : ExtrasEnvironment) :
    ∃ r s', (expression (.versionIn .pythonVersion versions operator)).run s = some (r, s') ∧
      s'.evaluate env extras r = (listed versions numbers != (operator == .notIn)) := by
  obtain ⟨range, hrange, hvalid, hcontains⟩ := fromPythonVersions_spec operator hversions
  have hedges : expressionEdges (.versionIn .pythonVersion versions operator) =
      some (.ok (.version .pythonFullVersion, .version (Edges.fromRange range))) := by
    simp only [expressionEdges, hrange, Option.bind_eq_bind, Option.bind_some]
  obtain ⟨r, s', hrun, -, -, -, -, hevaluate⟩ := expression_evaluate hedges hvalid hreach.sound
  refine ⟨r, s', hrun, ?_⟩
  rw [hevaluate, henv, hcontains]

end Lists

/-! ## Concrete lists -/

open Interner

/-- Linux with the given Python version. -/
private def linuxPythonVersion (version : ValidVersion) : MarkerEnvironment :=
  { linuxEnvironment with pythonFullVersion := version }

/-- `python_version not in '3.8 3.9'` on Python 3.9.1. -/
theorem evaluate_pythonVersionIn_notIn :
    ∃ r s', (expression (.versionIn .pythonVersion [.new [3, 8], .new [3, 9]] .notIn)).run
      Interner.default = some (r, s') ∧
        s'.evaluate (linuxPythonVersion (.new [3, 9, 1])) (.extras []) r =
          (listed [.new [3, 8], .new [3, 9]] [3, 9, 1] != (ContainerOperator.notIn == .notIn)) := by
  have hversions : ∀ version ∈ [ValidVersion.new [3, 8], .new [3, 9]], MinorRelease version := by
    simp only [List.forall_mem_cons]
    exact ⟨⟨by decide, by decide, by decide⟩, ⟨by decide, by decide, by decide⟩, by simp⟩
  exact evaluate_pythonVersionIn .default hversions rfl (.extras [])

/-- A pre-release comes before its minor version, one patch version makes the whole list false,
and the increment of a minor version may overflow. -/
theorem not_evaluate_pythonVersionIn :
    List.Forall (fun sample : List ValidVersion × ContainerOperator × ValidVersion =>
      ∃ r s', (expression (.versionIn .pythonVersion sample.1 sample.2.1)).run
        Interner.default = some (r, s') ∧
          s'.evaluate (linuxPythonVersion sample.2.2) (.extras []) r ≠
            (listed sample.1 sample.2.2.val.release != (sample.2.1 == .notIn)))
      [([.new [3, 9]], .isIn, (ValidVersion.new [3, 9, 0]).withPre (some ⟨.alpha, 1⟩)),
        ([.new [3, 9], .new [3, 9, 1]], .isIn, .new [3, 9, 1]),
        ([.new [3, 9, 1]], .notIn, .new [3, 9, 1]),
        ([.new [3, u64Max]], .isIn, .new [3, u64Max])] := by
  have hsample : ∀ sample : List ValidVersion × ContainerOperator × ValidVersion,
      ((expression (.versionIn .pythonVersion sample.1 sample.2.1)).run Interner.default).map
        (fun (r, s') => decide (s'.evaluate (linuxPythonVersion sample.2.2) (.extras []) r ≠
          (listed sample.1 sample.2.2.val.release != (sample.2.1 == .notIn)))) = some true →
        ∃ r s', (expression (.versionIn .pythonVersion sample.1 sample.2.1)).run
          Interner.default = some (r, s') ∧
            s'.evaluate (linuxPythonVersion sample.2.2) (.extras []) r ≠
              (listed sample.1 sample.2.2.val.release != (sample.2.1 == .notIn)) := by
    intro sample hrun
    obtain ⟨⟨r, s'⟩, hrun, hne⟩ := Option.map_eq_some_iff.mp hrun
    exact ⟨r, s', hrun, of_decide_eq_true hne⟩
  refine List.forall_iff_forall_mem.mpr fun sample hmem => ?_
  simp only [List.mem_cons, List.not_mem_nil, or_false] at hmem
  rcases hmem with rfl | rfl | rfl | rfl
  · exact hsample _ (by decide +kernel)
  · exact hsample _ (by decide +kernel)
  · exact hsample _ (by decide +kernel)
  · exact hsample _ (by decide +kernel)

end Uv.Pep508
