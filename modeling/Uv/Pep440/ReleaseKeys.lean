import Uv.Pep440.VersionSpecifier

/-!
# Releases in the order of versions

A version made of release numbers alone lies where these numbers lie, without their
trailing zeros.
-/

namespace Uv.Pep440

open Uv.Core Uv.Core.Order

theorem release_new (numbers : List ℕ) : (ValidVersion.new numbers).val.release = numbers := by
  rw [Version.release_eq]
  exact congrArg VersionFull.release (Version.makeFull_new numbers)

theorem key_new (numbers : List ℕ) :
    OrdKey.key (ValidVersion.new numbers) =
      (toLex (0, toLex (trimZeros numbers, (Version.releaseOnly []).sortableTuple.key)) :
        VersionKey) := by
  change (Version.new numbers).makeFull.key = _
  rw [Version.makeFull_new]
  rfl

theorem key_new_lt {left right : List ℕ} :
    OrdKey.key (ValidVersion.new left) < OrdKey.key (ValidVersion.new right) ↔
      trimZeros left < trimZeros right := by
  rw [key_new, key_new, Prod.Lex.toLex_lt_toLex, Prod.Lex.toLex_lt_toLex]
  simp

theorem onlyRelease_new (numbers : List ℕ) :
    (ValidVersion.new numbers).onlyRelease = .new numbers := by
  change ValidVersion.mk (Version.new (ValidVersion.new numbers).val.release) _ = _
  simp only [release_new]
  rfl

/-- Trailing zeros are dropped, but one number stays. -/
theorem onlyReleaseTrimmed_eq (version : ValidVersion) :
    version.onlyReleaseTrimmed = .new
      (if trimZeros version.val.release = [] then [0] else trimZeros version.val.release) := by
  have hany : version.val.release.any (· != 0) = true ↔ trimZeros version.val.release ≠ [] := by
    rw [ne_eq, trimZeros_eq_nil]
    simp
  have hval : version.val.onlyReleaseTrimmed = Version.new
      (if trimZeros version.val.release = [] then [0] else trimZeros version.val.release) := by
    rw [Version.onlyReleaseTrimmed]
    by_cases hnil : trimZeros version.val.release = []
    · rw [if_neg (fun h => hany.mp h hnil), if_pos hnil]
    · rw [if_pos (hany.mpr hnil), if_neg hnil]
  change ValidVersion.mk _ _ = ValidVersion.mk _ _
  simp only [hval]

theorem onlyReleaseTrimmed_new (numbers : List ℕ) :
    (ValidVersion.new numbers).onlyReleaseTrimmed =
      .new (if trimZeros numbers = [] then [0] else trimZeros numbers) := by
  rw [onlyReleaseTrimmed_eq, release_new]

theorem key_trimmed_new (numbers : List ℕ) :
    OrdKey.key (ValidVersion.new numbers).onlyReleaseTrimmed =
      OrdKey.key (ValidVersion.new numbers) := by
  rw [onlyReleaseTrimmed_new, key_new, key_new]
  split
  · rename_i hnil
    rw [hnil]
    rfl
  · have htrim : trimZeros (trimZeros numbers) = trimZeros numbers :=
      List.rdropWhile_idempotent _ _
    rw [htrim]

end Uv.Pep440
