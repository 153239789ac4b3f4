import Uv.NameLaws
import Uv.PlatformTags.Tags

/-!
# Wheel tags

The tags of a wheel, as its file name has them, and the expanded tags of its `WHEEL` file.
Most wheels have one tag of each kind.
-/

namespace Uv.DistributionFilename

open Uv.DistributionTypes (BuildTag)
open Uv.Pep440 Uv.PlatformTags

structure WheelTagSmall where
  pythonTag : LanguageTag
  abiTag : AbiTag
  platformTag : PlatformTag
  deriving DecidableEq

/-- `repr` keeps the tags that are not supported. -/
structure WheelTagLarge where
  buildTag : Option BuildTag
  pythonTag : List LanguageTag
  abiTag : List AbiTag
  platformTag : List PlatformTag
  repr : List Char

inductive WheelTag where
  | small (small : WheelTagSmall)
  | large (large : WheelTagLarge)

namespace WheelTag

def pythonTags : WheelTag → List LanguageTag
  | .small tag => [tag.pythonTag]
  | .large tag => tag.pythonTag

def abiTags : WheelTag → List AbiTag
  | .small tag => [tag.abiTag]
  | .large tag => tag.abiTag

def platformTags : WheelTag → List PlatformTag
  | .small tag => [tag.platformTag]
  | .large tag => tag.platformTag

/-- The environment has a combination of the tags, with the priority. -/
def HasPriority (tag : WheelTag) (compatibleTags : Tags) : ℕ → Prop :=
  compatibleTags.HasPriority tag.pythonTags tag.abiTags tag.platformTags

end WheelTag

structure WheelFilename where
  name : PackageName
  version : Version
  tags : WheelTag

namespace WheelFilename

def isCompatible (filename : WheelFilename) (compatibleTags : Tags) : Bool :=
  compatibleTags.isCompatible filename.tags.pythonTags filename.tags.abiTags
    filename.tags.platformTags

def compatibility (filename : WheelFilename) (compatibleTags : Tags) : TagCompatibility :=
  compatibleTags.compatibility filename.tags.pythonTags filename.tags.abiTags
    filename.tags.platformTags

end WheelFilename

/-- The expanded tags of a `WHEEL` file. -/
structure ExpandedTags where
  tags : List WheelTag

namespace ExpandedTags

def isCompatible (expanded : ExpandedTags) (compatibleTags : Tags) : Bool :=
  expanded.tags.any fun tag =>
    compatibleTags.isCompatible tag.pythonTags tag.abiTags tag.platformTags

def pythonTags (expanded : ExpandedTags) : List LanguageTag :=
  expanded.tags.flatMap WheelTag.pythonTags

def abiTags (expanded : ExpandedTags) : List AbiTag := expanded.tags.flatMap WheelTag.abiTags

def platformTags (expanded : ExpandedTags) : List PlatformTag :=
  expanded.tags.flatMap WheelTag.platformTags

def compatibility (expanded : ExpandedTags) (compatibleTags : Tags) : TagCompatibility :=
  compatibleTags.compatibility expanded.pythonTags expanded.abiTags expanded.platformTags

variable (expanded : ExpandedTags) (compatibleTags : Tags)

theorem isCompatible_iff : expanded.isCompatible compatibleTags = true ↔
    ∃ tag ∈ expanded.tags, ∃ priority, tag.HasPriority compatibleTags priority := by
  rw [isCompatible, List.any_eq_true]
  exact exists_congr fun _ => and_congr_right fun _ => compatibleTags.isCompatible_iff

/-- The environment has a combination of the components of all tags. -/
def PooledSupported : Prop :=
  ∃ priority,
    compatibleTags.HasPriority expanded.pythonTags expanded.abiTags expanded.platformTags priority

/-- A supported combination takes its components from several tags, and there is no tag of
which it is a combination. -/
def MixedSupported : Prop :=
  ∃ py ∈ expanded.pythonTags, ∃ abi ∈ expanded.abiTags, ∃ platform ∈ expanded.platformTags,
    (compatibleTags.priority py abi platform).isSome ∧
      ¬ ∃ tag ∈ expanded.tags,
        py ∈ tag.pythonTags ∧ abi ∈ tag.abiTags ∧ platform ∈ tag.platformTags

/-- A tag of the `WHEEL` file is supported by itself. -/
def OwnSupported : Prop :=
  ∃ tag ∈ expanded.tags, ∃ py ∈ tag.pythonTags, ∃ abi ∈ tag.abiTags,
    ∃ platform ∈ tag.platformTags, (compatibleTags.priority py abi platform).isSome

variable {expanded compatibleTags}

theorem ownSupported_iff : expanded.OwnSupported compatibleTags ↔
    ∃ tag ∈ expanded.tags, ∃ priority, tag.HasPriority compatibleTags priority := by
  simp only [OwnSupported, WheelTag.HasPriority, Tags.HasPriority, Option.isSome_iff_exists]
  constructor
  · rintro ⟨tag, htag, py, hpy, abi, habi, platform, hplatform, priority, hpriority⟩
    exact ⟨tag, htag, priority, py, hpy, abi, habi, platform, hplatform, hpriority⟩
  · rintro ⟨tag, htag, priority, py, hpy, abi, habi, platform, hplatform, hpriority⟩
    exact ⟨tag, htag, py, hpy, abi, habi, platform, hplatform, priority, hpriority⟩

/-- A combination of pooled components belongs to one tag, or is mixed. -/
theorem pooledSupported_iff : expanded.PooledSupported compatibleTags ↔
    expanded.OwnSupported compatibleTags ∨ expanded.MixedSupported compatibleTags := by
  constructor
  · rintro ⟨priority, py, hpy, abi, habi, platform, hplatform, hpriority⟩
    have hsome : (compatibleTags.priority py abi platform).isSome := by
      rw [hpriority]
      rfl
    by_cases hown : ∃ tag ∈ expanded.tags,
        py ∈ tag.pythonTags ∧ abi ∈ tag.abiTags ∧ platform ∈ tag.platformTags
    · obtain ⟨tag, htag, hpy, habi, hplatform⟩ := hown
      exact .inl ⟨tag, htag, py, hpy, abi, habi, platform, hplatform, hsome⟩
    · exact .inr ⟨py, hpy, abi, habi, platform, hplatform, hsome, hown⟩
  · rintro (⟨tag, htag, py, hpy, abi, habi, platform, hplatform, hsome⟩ |
      ⟨py, hpy, abi, habi, platform, hplatform, hsome, -⟩)
    · obtain ⟨priority, hpriority⟩ := Option.isSome_iff_exists.mp hsome
      exact ⟨priority, py, List.mem_flatMap.mpr ⟨tag, htag, hpy⟩, abi,
        List.mem_flatMap.mpr ⟨tag, htag, habi⟩, platform,
        List.mem_flatMap.mpr ⟨tag, htag, hplatform⟩, hpriority⟩
    · obtain ⟨priority, hpriority⟩ := Option.isSome_iff_exists.mp hsome
      exact ⟨priority, py, hpy, abi, habi, platform, hplatform, hpriority⟩

variable (expanded compatibleTags)

/-- The pooled components have more combinations than the tags: the two tests of a `WHEEL` file
agree unless only a mixed combination is supported.  The tests of a file name always agree, and
the priority is the greatest one of its combinations. -/
theorem compatibility_agrees_iff (filename : WheelFilename) :
    (((expanded.compatibility compatibleTags).isCompatible = true ↔
        expanded.isCompatible compatibleTags = true) ↔
      (expanded.MixedSupported compatibleTags → expanded.OwnSupported compatibleTags)) ∧
    ((filename.compatibility compatibleTags).isCompatible = true ↔
      filename.isCompatible compatibleTags = true) ∧
    ∀ priority, filename.compatibility compatibleTags = .compatible priority ↔
      IsGreatest {priority | filename.tags.HasPriority compatibleTags priority} priority := by
  refine ⟨?_, ?_, fun priority => compatibleTags.compatibility_eq_compatible_iff⟩
  · rw [isCompatible_iff, ← ownSupported_iff, compatibility, Tags.isCompatible_compatibility]
    change (expanded.PooledSupported compatibleTags ↔ _) ↔ _
    rw [pooledSupported_iff]
    tauto
  · rw [WheelFilename.compatibility, WheelFilename.isCompatible, Tags.isCompatible_compatibility,
      Tags.isCompatible_iff]

/-- `py3-none-win32` and `py2-none-any`, where only `py3-none-any` is supported. -/
theorem not_compatibility_agrees :
    let py (major : ℕ) : LanguageTag := .python major none
    let expanded : ExpandedTags :=
      ⟨[.small ⟨py 3, .none, .win32⟩, .small ⟨py 2, .none, .any⟩]⟩
    ∃ compatibleTags, Tags.new [(py 3, .none, .any)] = some compatibleTags ∧
      ¬ ((expanded.compatibility compatibleTags).isCompatible = true ↔
        expanded.isCompatible compatibleTags = true) :=
  ⟨_, rfl, by decide⟩

end ExpandedTags

end Uv.DistributionFilename
