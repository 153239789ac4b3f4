import Uv.Pep440.ParserSpec
import Uv.Pep440.VersionBuilders

/-!
# The fast path

Where the fast path of the version parser returns a version, the general steps
read the same input to the same components.  So trying it first decides how a
version is packed, never what it is.
-/

namespace Uv.Pep440

open Uv.Core Grammar

namespace Parser

/-- An outcome is that of a verbatim version. -/
theorem exists_of_outcome {result : Except PatternErrorKind VersionPattern}
    {full : VersionFull} (houtcome : outcome result = some full) :
    ∃ vpat, result = .ok vpat ∧ vpat.wildcard = false ∧
      vpat.version.makeFull = full := by
  cases result with
  | error err => cases houtcome
  | ok vpat =>
      cases hwildcard : vpat.wildcard with
      | true => simp [outcome, hwildcard] at houtcome
      | false =>
          refine ⟨vpat, rfl, hwildcard, ?_⟩
          simpa [outcome, hwildcard] using houtcome

/-- The fast path returns no wildcard. -/
theorem wildcard_of_parseFast {v : List Byte} {vpat : VersionPattern}
    (hfast : (Parser.new v).parseFast = some vpat) : vpat.wildcard = false := by
  unfold parseFast at hfast
  cases hloop : parseFastLoop (Parser.new v).v false 0 [] with
  | none => simp [hloop] at hfast
  | some numbers =>
      simp only [hloop, Option.some.injEq] at hfast
      rw [← hfast]

/-- On every input on which the fast path returns a version, the general steps
return one with the same components and as many release segments. -/
theorem parseSlow_of_parseFast {v : List Byte} {vpat : VersionPattern}
    (hfast : (Parser.new v).parseFast = some vpat) :
    ∃ vpat', (Parser.new v).parseSlow = .ok vpat' ∧
      vpat'.wildcard = vpat.wildcard ∧
      vpat'.version.components = vpat.version.components ∧
      vpat'.version.release.length = vpat.version.release.length := by
  have hwildcard := wildcard_of_parseFast hfast
  -- Both paths give what the first match of the grammar reads as.
  have hslow : outcome (Parser.new v).parseSlow =
      some vpat.version.makeFull := by
    rw [outcome_parseSlow, ← outcome_parseFast hfast]
    simp [outcome, hwildcard]
  obtain ⟨vpat', hparse, hwildcard', hfull⟩ := exists_of_outcome hslow
  have hcomponents : vpat'.version.components = vpat.version.components := by
    rw [Version.components_eq, Version.components_eq, hfull]
  refine ⟨vpat', hparse, by rw [hwildcard', hwildcard], hcomponents, ?_⟩
  have hrelease := congrArg VersionFull.release hcomponents
  exact congrArg List.length hrelease

/-- `007.0.255` has leading zeros and a segment at the bound of a byte. -/
theorem parseSlow_of_parseFast_padded : ∃ vpat vpat',
    (Parser.new (ascii "007.0.255")).parseFast = some vpat ∧
      vpat.version.release = [7, 0, 255] ∧
      (Parser.new (ascii "007.0.255")).parseSlow = .ok vpat' ∧
      vpat'.version.components = vpat.version.components := by
  have hfast : ((Parser.new (ascii "007.0.255")).parseFast).map
      (·.version.release) = some [7, 0, 255] := by
    decide
  obtain ⟨vpat, hvpat, hrelease⟩ := Option.map_eq_some_iff.mp hfast
  obtain ⟨vpat', hslow, _, hcomponents, _⟩ := parseSlow_of_parseFast hvpat
  exact ⟨vpat, vpat', hvpat, hrelease, hslow, hcomponents⟩

/-- The same input through the general steps alone. -/
example : outcome (Parser.new (ascii "007.0.255")).parseSlow =
    some (Version.new [7, 0, 255]).makeFull := by
  decide +kernel

end Parser

end Uv.Pep440
