import Uv.Core.RunningBest
import Uv.DistributionTypes.PrioritizedDist

/-!
# Supported tags

The tags that an environment supports, each with a priority, and how the tags of a wheel are
looked up in them.  A wheel has several tags of each kind and stands for all combinations of
them.

Hash maps are association lists; `none` stands for a panic where a priority does not fit.
-/

namespace Uv.PlatformTags

open Uv.Core
open Uv.DistributionTypes (IncompatibleTag)

/-! ## Maps -/

section Map

variable {K V : Type} [DecidableEq K]

/-- `map.entry(key)`, with what is done to its value. -/
def entry (key : K) (initial : V) (f : V → V) : List (K × V) → List (K × V)
  | [] => [(key, f initial)]
  | (other, value) :: rest =>
      if other = key then (other, f value) :: rest
      else (other, value) :: entry key initial f rest

theorem lookup_entry (key other : K) (initial : V) (f : V → V) (map : List (K × V)) :
    (entry key initial f map).lookup other =
      if other = key then some (f ((map.lookup key).getD initial)) else map.lookup other := by
  induction map with
  | nil =>
      rw [entry, List.lookup_cons, List.lookup_nil]
      by_cases hkey : other = key
      · rw [hkey, beq_self_eq_true, if_pos rfl]
        rfl
      · rw [beq_false_of_ne hkey, if_neg hkey]
  | cons head rest ih =>
      obtain ⟨first, value⟩ := head
      rw [entry]
      by_cases hfirst : first = key
      · rw [if_pos hfirst, List.lookup_cons, List.lookup_cons, List.lookup_cons, hfirst,
          beq_self_eq_true]
        by_cases hkey : other = key
        · rw [hkey, beq_self_eq_true, if_pos rfl]
          rfl
        · rw [beq_false_of_ne hkey, if_neg hkey]
      · rw [if_neg hfirst, List.lookup_cons, List.lookup_cons, List.lookup_cons, ih,
          beq_false_of_ne (Ne.symm hfirst)]
        by_cases hother : other = first
        · subst hother
          simp [hfirst]
        · rw [beq_false_of_ne hother]

end Map

/-! ## Compatibility -/

inductive TagCompatibility where
  | incompatible (tag : IncompatibleTag)
  | compatible (priority : ℕ)
  deriving DecidableEq

namespace TagCompatibility

/-- Every compatible tag is above all incompatible ones. -/
def rank : TagCompatibility → ℕ ⊕ₗ ℕ
  | .incompatible tag => Sum.inlₗ tag.rank
  | .compatible priority => Sum.inrₗ priority

/-- `Ord::cmp` is not `Less`. -/
def atLeast : TagCompatibility → TagCompatibility → Bool
  | .compatible self, .compatible other => other ≤ self
  | .incompatible self, .incompatible other => other.rank ≤ self.rank
  | .compatible _, .incompatible _ => true
  | .incompatible _, .compatible _ => false

/-- `Ord::max`. -/
def max (self other : TagCompatibility) : TagCompatibility :=
  if other.atLeast self then other else self

def isCompatible : TagCompatibility → Bool
  | .compatible _ => true
  | .incompatible _ => false

theorem atLeast_iff (self other : TagCompatibility) :
    self.atLeast other = true ↔ other.rank ≤ self.rank := by
  cases self <;> cases other <;> simp [atLeast, rank]

theorem ranks_atLeast : Ranks atLeast rank where
  le_of_better hbetter := (atLeast_iff _ _).mp hbetter
  better_of_lt hlt := (atLeast_iff _ _).mpr hlt.le

/-- A maximum over a list is the best element so far in the end. -/
theorem some_foldl_max (best : TagCompatibility) (verdicts : List TagCompatibility) :
    some (verdicts.foldl max best) = runningBest atLeast (best :: verdicts) := by
  rw [runningBest, List.foldl_cons, keepBetter]
  induction verdicts generalizing best with
  | nil => rfl
  | cons verdict verdicts ih =>
      rw [List.foldl_cons, List.foldl_cons, ih, keepBetter, max]
      split <;> rfl

/-- The maximum is compatible with a priority exactly where that is the greatest one. -/
theorem foldl_max_eq_compatible_iff (incompatible : IncompatibleTag)
    (verdicts : List TagCompatibility) (priority : ℕ) :
    verdicts.foldl max (.incompatible incompatible) = .compatible priority ↔
      IsGreatest {priority | .compatible priority ∈ verdicts} priority := by
  obtain ⟨best, hbest, hmem, hgreatest⟩ :=
    exists_runningBest ranks_atLeast (List.cons_ne_nil (.incompatible incompatible) verdicts)
  rw [← some_foldl_max, Option.some.injEq] at hbest
  rw [hbest]
  constructor
  · rintro rfl
    refine ⟨by simpa using hmem, ?_⟩
    intro other hother
    exact Sum.Lex.inr_le_inr_iff.mp (hgreatest _ (List.mem_cons_of_mem _ hother))
  · rintro ⟨hpriority, hupper⟩
    have hle := hgreatest _ (List.mem_cons_of_mem _ hpriority)
    cases best with
    | incompatible tag => exact absurd hle Sum.Lex.not_inr_le_inl
    | compatible other =>
        have hother : .compatible other ∈ verdicts := by simpa using hmem
        exact congrArg _ (le_antisymm (hupper hother) (Sum.Lex.inr_le_inr_iff.mp hle))

/-- The maximum is compatible exactly where a compatible one is there. -/
theorem isCompatible_foldl_max (incompatible : IncompatibleTag)
    (verdicts : List TagCompatibility) :
    (verdicts.foldl max (.incompatible incompatible)).isCompatible = true ↔
      ∃ priority, .compatible priority ∈ verdicts := by
  obtain ⟨best, hbest, hmem, hgreatest⟩ :=
    exists_runningBest ranks_atLeast (List.cons_ne_nil (.incompatible incompatible) verdicts)
  rw [← some_foldl_max, Option.some.injEq] at hbest
  rw [hbest]
  constructor
  · intro hcompatible
    cases best with
    | incompatible tag => exact absurd hcompatible Bool.false_ne_true
    | compatible priority => exact ⟨priority, by simpa using hmem⟩
  · rintro ⟨priority, hpriority⟩
    have hle := hgreatest _ (List.mem_cons_of_mem _ hpriority)
    cases best with
    | incompatible tag => exact absurd hle Sum.Lex.not_inr_le_inl
    | compatible other => rfl

end TagCompatibility

/-- `python_tag |--> abi_tag |--> platform_tag |--> priority`. -/
structure Tags where
  map : List (LanguageTag × List (AbiTag × List (PlatformTag × ℕ)))

namespace Tags

/-- `TagPriority::try_from`: a priority is a positive 32-bit number. -/
def priorityOf (index : ℕ) : Option ℕ :=
  if 1 + index < 2 ^ 32 then some (1 + index) else none

/-- One tag of the reversed list; a tag that is there keeps its priority. -/
def addTag (tags : Tags) (tag : LanguageTag × AbiTag × PlatformTag) (priority : ℕ) : Tags :=
  ⟨entry tag.1 [] (entry tag.2.1 [] (entry tag.2.2 priority id)) tags.map⟩

/-- The tags that come first have the highest priorities. -/
def new (tags : List (LanguageTag × AbiTag × PlatformTag)) : Option Tags :=
  tags.reverse.zipIdx.foldlM
    (fun known indexed => (priorityOf indexed.2).map (known.addTag indexed.1)) ⟨[]⟩

/-- The priority of one tag. -/
def priority (tags : Tags) (py : LanguageTag) (abi : AbiTag) (platform : PlatformTag) : Option ℕ :=
  ((tags.map.lookup py).bind (·.lookup abi)).bind (·.lookup platform)

section Wheel

variable (tags : Tags) (wheelPythonTags : List LanguageTag) (wheelAbiTags : List AbiTag)
  (wheelPlatformTags : List PlatformTag)

def isCompatible : Bool :=
  wheelPythonTags.any fun wheelPy =>
    match tags.map.lookup wheelPy with
    | none => false
    | some abis =>
        wheelAbiTags.any fun wheelAbi =>
          match abis.lookup wheelAbi with
          | none => false
          | some platforms =>
              wheelPlatformTags.any fun wheelPlatform => (platforms.lookup wheelPlatform).isSome

/-- The innermost loop of `compatibility`. -/
def maxPlatform (platforms : List (PlatformTag × ℕ)) (maxCompatibility : TagCompatibility) :
    TagCompatibility :=
  wheelPlatformTags.foldl (fun maxCompatibility wheelPlatform =>
    match platforms.lookup wheelPlatform with
    | some priority => maxCompatibility.max (.compatible priority)
    | none => maxCompatibility.max (.incompatible .platform)) maxCompatibility

/-- The loop over the ABI tags. -/
def maxAbi (abis : List (AbiTag × List (PlatformTag × ℕ))) (maxCompatibility : TagCompatibility) :
    TagCompatibility :=
  wheelAbiTags.foldl (fun maxCompatibility wheelAbi =>
    match abis.lookup wheelAbi with
    | none => maxCompatibility.max (.incompatible .abi)
    | some platforms => maxPlatform wheelPlatformTags platforms maxCompatibility) maxCompatibility

/-- The score of the most compatible tag, or the part which was a closest match. -/
def compatibility : TagCompatibility :=
  wheelPythonTags.foldl (fun maxCompatibility wheelPy =>
    match tags.map.lookup wheelPy with
    | none => maxCompatibility.max (.incompatible .python)
    | some abis => maxAbi wheelAbiTags wheelPlatformTags abis maxCompatibility)
    (.incompatible .invalid)

/-! ### What the search goes through -/

/-- What the innermost loop finds out about the platform tags. -/
def platformVerdicts (platforms : List (PlatformTag × ℕ)) : List TagCompatibility :=
  wheelPlatformTags.map fun wheelPlatform =>
    match platforms.lookup wheelPlatform with
    | some priority => .compatible priority
    | none => .incompatible .platform

def abiVerdicts (abis : List (AbiTag × List (PlatformTag × ℕ))) : List TagCompatibility :=
  wheelAbiTags.flatMap fun wheelAbi =>
    match abis.lookup wheelAbi with
    | none => [.incompatible .abi]
    | some platforms => platformVerdicts wheelPlatformTags platforms

def verdicts : List TagCompatibility :=
  wheelPythonTags.flatMap fun wheelPy =>
    match tags.map.lookup wheelPy with
    | none => [.incompatible .python]
    | some abis => abiVerdicts wheelAbiTags wheelPlatformTags abis

theorem maxPlatform_eq (platforms : List (PlatformTag × ℕ)) (maxCompatibility : TagCompatibility) :
    maxPlatform wheelPlatformTags platforms maxCompatibility =
      (platformVerdicts wheelPlatformTags platforms).foldl .max maxCompatibility := by
  rw [maxPlatform, platformVerdicts, List.foldl_map]
  congr 1
  funext best wheelPlatform
  split <;> rfl

theorem maxAbi_eq (abis : List (AbiTag × List (PlatformTag × ℕ)))
    (maxCompatibility : TagCompatibility) :
    maxAbi wheelAbiTags wheelPlatformTags abis maxCompatibility =
      (abiVerdicts wheelAbiTags wheelPlatformTags abis).foldl .max maxCompatibility := by
  rw [maxAbi, abiVerdicts, List.foldl_flatMap]
  congr 1
  funext best wheelAbi
  split
  · rfl
  · exact maxPlatform_eq ..

/-- The search takes the maximum over the verdicts. -/
theorem compatibility_eq :
    tags.compatibility wheelPythonTags wheelAbiTags wheelPlatformTags =
      (tags.verdicts wheelPythonTags wheelAbiTags wheelPlatformTags).foldl .max
        (.incompatible .invalid) := by
  rw [compatibility, verdicts, List.foldl_flatMap]
  congr 1
  funext best wheelPy
  split
  · rfl
  · exact maxAbi_eq ..

/-- A combination of the three kinds of tags has the priority. -/
def HasPriority (priority : ℕ) : Prop :=
  ∃ py ∈ wheelPythonTags, ∃ abi ∈ wheelAbiTags, ∃ platform ∈ wheelPlatformTags,
    tags.priority py abi platform = some priority

variable {wheelPythonTags wheelAbiTags wheelPlatformTags}

theorem compatible_mem_platformVerdicts {platforms : List (PlatformTag × ℕ)} {priority : ℕ} :
    .compatible priority ∈ platformVerdicts wheelPlatformTags platforms ↔
      ∃ platform ∈ wheelPlatformTags, platforms.lookup platform = some priority := by
  rw [platformVerdicts, List.mem_map]
  refine exists_congr fun platform => and_congr_right fun _ => ?_
  cases platforms.lookup platform <;> simp

theorem compatible_mem_abiVerdicts {abis : List (AbiTag × List (PlatformTag × ℕ))} {priority : ℕ} :
    .compatible priority ∈ abiVerdicts wheelAbiTags wheelPlatformTags abis ↔
      ∃ abi ∈ wheelAbiTags, ∃ platform ∈ wheelPlatformTags,
        (abis.lookup abi).bind (·.lookup platform) = some priority := by
  rw [abiVerdicts, List.mem_flatMap]
  refine exists_congr fun abi => and_congr_right fun _ => ?_
  cases abis.lookup abi with
  | none => simp
  | some platforms => exact compatible_mem_platformVerdicts

theorem compatible_mem_verdicts {priority : ℕ} :
    .compatible priority ∈ tags.verdicts wheelPythonTags wheelAbiTags wheelPlatformTags ↔
      tags.HasPriority wheelPythonTags wheelAbiTags wheelPlatformTags priority := by
  rw [verdicts, HasPriority, List.mem_flatMap]
  refine exists_congr fun py => and_congr_right fun _ => ?_
  simp only [Tags.priority]
  cases tags.map.lookup py with
  | none => simp
  | some abis => exact compatible_mem_abiVerdicts

/-! ### What is found -/

theorem isCompatible_iff :
    tags.isCompatible wheelPythonTags wheelAbiTags wheelPlatformTags = true ↔
      ∃ priority, tags.HasPriority wheelPythonTags wheelAbiTags wheelPlatformTags priority := by
  simp only [isCompatible, HasPriority, Tags.priority, List.any_eq_true]
  constructor
  · rintro ⟨py, hpy, hcompatible⟩
    cases habis : tags.map.lookup py with
    | none => simp [habis] at hcompatible
    | some abis =>
        simp only [habis, List.any_eq_true] at hcompatible
        obtain ⟨abi, habi, hcompatible⟩ := hcompatible
        cases hplatforms : abis.lookup abi with
        | none => simp [hplatforms] at hcompatible
        | some platforms =>
            simp only [hplatforms, List.any_eq_true] at hcompatible
            obtain ⟨platform, hplatform, hsome⟩ := hcompatible
            obtain ⟨priority, hpriority⟩ := Option.isSome_iff_exists.mp hsome
            exact ⟨priority, py, hpy, abi, habi, platform, hplatform, by
              simp [habis, hplatforms, hpriority]⟩
  · rintro ⟨priority, py, hpy, abi, habi, platform, hplatform, hpriority⟩
    obtain ⟨platforms, hplatforms, hpriority⟩ := Option.bind_eq_some_iff.mp hpriority
    obtain ⟨abis, habis, hplatforms⟩ := Option.bind_eq_some_iff.mp hplatforms
    refine ⟨py, hpy, ?_⟩
    simp only [habis, List.any_eq_true]
    refine ⟨abi, habi, ?_⟩
    simp only [hplatforms, List.any_eq_true]
    exact ⟨platform, hplatform, by rw [hpriority]; rfl⟩

theorem isCompatible_compatibility :
    (tags.compatibility wheelPythonTags wheelAbiTags wheelPlatformTags).isCompatible = true ↔
      ∃ priority, tags.HasPriority wheelPythonTags wheelAbiTags wheelPlatformTags priority := by
  rw [compatibility_eq, TagCompatibility.isCompatible_foldl_max]
  exact exists_congr fun _ => tags.compatible_mem_verdicts

theorem compatibility_eq_compatible_iff {priority : ℕ} :
    tags.compatibility wheelPythonTags wheelAbiTags wheelPlatformTags = .compatible priority ↔
      IsGreatest {priority |
        tags.HasPriority wheelPythonTags wheelAbiTags wheelPlatformTags priority} priority := by
  rw [compatibility_eq, TagCompatibility.foldl_max_eq_compatible_iff]
  simp only [compatible_mem_verdicts]

end Wheel

end Tags

end Uv.PlatformTags
