import Uv.PlatformTags.NewerFirst
import Uv.PlatformTags.Tags

/-!
# Tags of an environment

The tags that a Python on a platform supports, and their priorities: a newer platform tag has a
higher priority than an older one of its family, with the same language and ABI.
-/

namespace Uv.PlatformTags

inductive TagsError where
  | platformError (err : PlatformError)
  | unsupportedImplementation (name : String)
  | unknownImplementation (name : String)
  | gilIsACPythonProblem (name : String)
  deriving DecidableEq

inductive Implementation where
  | cpython (gilDisabled : Bool)
  | pypy
  | graalpy
  | pyston
  deriving DecidableEq

namespace Implementation

def languageTag (self : Implementation) (pythonVersion : ℕ × ℕ) : LanguageTag :=
  match self with
  | .cpython _ => .cpython pythonVersion.1 pythonVersion.2
  | .pypy => .pypy pythonVersion.1 pythonVersion.2
  | .graalpy => .graalpy pythonVersion.1 pythonVersion.2
  | .pyston => .pyston pythonVersion.1 pythonVersion.2

def abiTag (self : Implementation) (pythonVersion implementationVersion : ℕ × ℕ) : AbiTag :=
  match self with
  | .cpython gilDisabled => .cpython gilDisabled pythonVersion.1 pythonVersion.2
  | .pypy => .pypy (some pythonVersion) implementationVersion.1 implementationVersion.2
  | .graalpy => .graalpy pythonVersion implementationVersion.1 implementationVersion.2
  | .pyston => .pyston implementationVersion.1 implementationVersion.2

def parse (name : String) (gilDisabled : Bool) : Except TagsError Implementation :=
  if gilDisabled && name != "cpython" then .error (.gilIsACPythonProblem name)
  else if name = "cpython" then .ok (.cpython gilDisabled)
  else if name = "pypy" then .ok .pypy
  else if name = "graalpy" then .ok .graalpy
  else if name = "pyston" then .ok .pyston
  else if name = "python" ∨ name = "ironpython" ∨ name = "jython" then
    .error (.unsupportedImplementation name)
  else .error (.unknownImplementation name)

end Implementation

namespace Tags

/-- One entry for each of the platform tags. -/
def withPlatforms (platformTags : List PlatformTag) (py : LanguageTag) (abi : AbiTag) :
    List (LanguageTag × AbiTag × PlatformTag) :=
  platformTags.map fun platformTag => (py, abi, platformTag)

/-- `abi3` and no ABI, for CPython; 3.2 is the first version with the ABI. -/
def cpythonTags (platformTags : List PlatformTag) (gilDisabled : Bool) (pythonVersion : ℕ × ℕ) :
    List (LanguageTag × AbiTag × PlatformTag) :=
  (downTo 2 pythonVersion.2).flatMap fun minor =>
    let py := (Implementation.cpython gilDisabled).languageTag (pythonVersion.1, minor)
    (if gilDisabled then [] else withPlatforms platformTags py .abi3) ++
      if minor = pythonVersion.2 then withPlatforms platformTags py .none else []

/-- No ABI, with the major version alone after the version itself. -/
def versionTags (platformTags : List PlatformTag) (pythonVersion : ℕ × ℕ) :
    List (LanguageTag × AbiTag × PlatformTag) :=
  (downTo 0 pythonVersion.2).flatMap fun minor =>
    withPlatforms platformTags (.python pythonVersion.1 (some minor)) .none ++
      if minor = pythonVersion.2 then
        withPlatforms platformTags (.python pythonVersion.1 none) .none
      else []

/-- The tags of `from_env`, the best ones first. -/
def envTags (implementation : Implementation) (platformTags : List PlatformTag)
    (pythonVersion implementationVersion : ℕ × ℕ) : List (LanguageTag × AbiTag × PlatformTag) :=
  -- 1. This exact c api version
  withPlatforms platformTags (implementation.languageTag pythonVersion)
      (implementation.abiTag pythonVersion implementationVersion) ++
    -- 2. abi3 and no abi
    (match implementation with
      | .cpython gilDisabled => cpythonTags platformTags gilDisabled pythonVersion
      | _ => []) ++
    -- 3. no abi
    versionTags platformTags pythonVersion ++
    -- 4. no binary
    (match implementation with
      | .cpython _ => withPlatforms [.any] (implementation.languageTag pythonVersion) .none
      | _ => []) ++
    versionTags [.any] pythonVersion

/-- The tags of a platform, without those of `manylinux` where they do not apply. -/
def envPlatformTags (toLowercase : String → String) (platform : Platform)
    (manylinuxCompatible : Bool) : Except PlatformError (List PlatformTag) :=
  (compatibleTags toLowercase platform).map fun platformTags =>
    match platform.os with
    | .manylinux .. =>
        if manylinuxCompatible then platformTags
        else platformTags.filter fun tag => !tag.isManylinux
    | _ => platformTags

/-- `none` inside a result is a panic of `Tags::new`. -/
def fromEnv (toLowercase : String → String) (platform : Platform) (pythonVersion : ℕ × ℕ)
    (implementationName : String) (implementationVersion : ℕ × ℕ)
    (manylinuxCompatible gilDisabled : Bool) : Except TagsError (Option Tags) :=
  match Implementation.parse implementationName gilDisabled with
  | .error err => .error err
  | .ok implementation =>
      match envPlatformTags toLowercase platform manylinuxCompatible with
      | .error err => .error (.platformError err)
      | .ok platformTags =>
          .ok (new (envTags implementation platformTags pythonVersion implementationVersion))

/-! ## Priorities -/

/-- An entry that is there keeps its priority. -/
theorem priority_addTag (tags : Tags) (tag : LanguageTag × AbiTag × PlatformTag) (index : ℕ)
    (py : LanguageTag) (abi : AbiTag) (platform : PlatformTag) :
    (tags.addTag tag index).priority py abi platform =
      if (py, abi, platform) = tag then some ((tags.priority py abi platform).getD index)
      else tags.priority py abi platform := by
  obtain ⟨tagPy, tagAbi, tagPlatform⟩ := tag
  simp only [priority, addTag, lookup_entry, Prod.mk.injEq]
  by_cases hpy : py = tagPy
  · subst hpy
    cases hmap : tags.map.lookup py with
    | none =>
        by_cases habi : abi = tagAbi
        · by_cases hplatform : platform = tagPlatform <;> simp [habi, hplatform, lookup_entry]
        · simp [habi, lookup_entry]
    | some abis =>
        by_cases habi : abi = tagAbi
        · subst habi
          cases hplatforms : abis.lookup abi with
          | none =>
              by_cases hplatform : platform = tagPlatform <;>
                simp [hplatforms, hplatform, lookup_entry]
          | some platforms =>
              by_cases hplatform : platform = tagPlatform
              · subst hplatform
                simp [hplatforms, lookup_entry]
              · simp [hplatforms, hplatform, lookup_entry]
        · simp [habi, lookup_entry]
  · simp [hpy]

/-- A tag has the priority of its first place in the reversed list. -/
theorem priority_foldlM {reversed : List (LanguageTag × AbiTag × PlatformTag)} {start : ℕ}
    {known tags : Tags}
    (hfold : (reversed.zipIdx start).foldlM
      (fun known indexed => (priorityOf indexed.2).map (known.addTag indexed.1)) known = some tags)
    (py : LanguageTag) (abi : AbiTag) (platform : PlatformTag) :
    tags.priority py abi platform = (known.priority py abi platform).or
      (if (py, abi, platform) ∈ reversed then
        some (1 + (start + reversed.idxOf (py, abi, platform))) else none) := by
  induction reversed generalizing start known with
  | nil =>
      obtain rfl := Option.some.inj hfold
      simp
  | cons tag reversed ih =>
      rw [List.zipIdx_cons, List.foldlM_cons] at hfold
      obtain ⟨next, hnext, hfold⟩ := Option.bind_eq_some_iff.mp hfold
      obtain ⟨index, hindex, rfl⟩ := Option.map_eq_some_iff.mp hnext
      have hindex : 1 + start = index := by
        rw [priorityOf] at hindex
        split at hindex
        · exact Option.some.inj hindex
        · exact absurd hindex (by simp)
      rw [ih hfold, priority_addTag, ← hindex, List.idxOf_cons]
      by_cases htag : (py, abi, platform) = tag
      · subst htag
        cases known.priority py abi platform <;> simp
      · have hne : (tag == (py, abi, platform)) = false := beq_false_of_ne (Ne.symm htag)
        have hmem : (py, abi, platform) ∈ tag :: reversed ↔ (py, abi, platform) ∈ reversed := by
          simp [htag]
        have hplace : start + 1 + reversed.idxOf (py, abi, platform) =
            start + (reversed.idxOf (py, abi, platform) + 1) := by omega
        rw [if_neg htag, hne, cond_false, hplace]
        simp only [hmem]

theorem priority_new {list : List (LanguageTag × AbiTag × PlatformTag)} {tags : Tags}
    (hnew : new list = some tags) (py : LanguageTag) (abi : AbiTag) (platform : PlatformTag) :
    tags.priority py abi platform =
      if (py, abi, platform) ∈ list then some (1 + list.reverse.idxOf (py, abi, platform))
      else none := by
  rw [priority_foldlM hnew py abi platform]
  simp [priority]

/-! ## The order of the entries -/

/-- For a language and an ABI, the last entry with the newer of two platform tags is followed by
one with the older tag. -/
def Respects (newer older : PlatformTag)
    (list : List (LanguageTag × AbiTag × PlatformTag)) : Prop :=
  ∀ py abi, (py, abi, newer) ∈ list → ∃ before after,
    list = before ++ (py, abi, older) :: after ∧ (py, abi, newer) ∉ after

section Respects

variable {newer older : PlatformTag}
  {left right list : List (LanguageTag × AbiTag × PlatformTag)}

theorem respects_nil : Respects newer older [] := by simp [Respects]

theorem Respects.append (hleft : Respects newer older left) (hright : Respects newer older right) :
    Respects newer older (left ++ right) := by
  intro py abi hmem
  by_cases hmemRight : (py, abi, newer) ∈ right
  · obtain ⟨before, after, rfl, hafter⟩ := hright py abi hmemRight
    exact ⟨left ++ before, after, by simp, hafter⟩
  · have hmemLeft := (List.mem_append.mp hmem).resolve_right hmemRight
    obtain ⟨before, after, rfl, hafter⟩ := hleft py abi hmemLeft
    exact ⟨before, after ++ right, by simp, by simp [hafter, hmemRight]⟩

theorem Respects.flatMap {α : Type} {xs : List α}
    {f : α → List (LanguageTag × AbiTag × PlatformTag)}
    (hf : ∀ x ∈ xs, Respects newer older (f x)) : Respects newer older (xs.flatMap f) := by
  induction xs with
  | nil => exact respects_nil
  | cons x xs ih =>
      rw [List.flatMap_cons]
      exact (hf x List.mem_cons_self).append
        (ih fun y hy => hf y (List.mem_cons_of_mem _ hy))

/-- The platform tags are in the same order for every language and ABI. -/
theorem respects_withPlatforms {platformTags : List PlatformTag}
    (htags : newer ∈ platformTags → ∃ before after,
      platformTags = before ++ older :: after ∧ newer ∉ after) (py : LanguageTag) (abi : AbiTag) :
    Respects newer older (withPlatforms platformTags py abi) := by
  intro py' abi' hmem
  simp only [withPlatforms, List.mem_map, Prod.mk.injEq] at hmem
  obtain ⟨_, hnewer, rfl, rfl, rfl⟩ := hmem
  obtain ⟨before, after, rfl, hafter⟩ := htags hnewer
  exact ⟨withPlatforms before py abi, withPlatforms after py abi, by simp [withPlatforms], by
    simpa [withPlatforms] using hafter⟩

variable {platformTags : List PlatformTag}

theorem respects_versionTags (hblock : ∀ py abi,
      Respects newer older (withPlatforms platformTags py abi)) (pythonVersion : ℕ × ℕ) :
    Respects newer older (versionTags platformTags pythonVersion) := by
  refine Respects.flatMap fun minor _ => (hblock _ _).append ?_
  split
  · exact hblock _ _
  · exact respects_nil

theorem respects_cpythonTags (hblock : ∀ py abi,
      Respects newer older (withPlatforms platformTags py abi)) (gilDisabled : Bool)
    (pythonVersion : ℕ × ℕ) :
    Respects newer older (cpythonTags platformTags gilDisabled pythonVersion) := by
  refine Respects.flatMap fun minor _ => Respects.append ?_ ?_
  · split
    · exact respects_nil
    · exact hblock _ _
  · split
    · exact hblock _ _
    · exact respects_nil

/-- Every part of the list goes through the platform tags in order, or has no platform. -/
theorem respects_envTags (hany : newer ≠ .any) (hblock : ∀ py abi,
      Respects newer older (withPlatforms platformTags py abi)) (implementation : Implementation)
    (pythonVersion implementationVersion : ℕ × ℕ) :
    Respects newer older
      (envTags implementation platformTags pythonVersion implementationVersion) := by
  have hbinary : ∀ py abi, Respects newer older (withPlatforms [.any] py abi) :=
    respects_withPlatforms fun hmem => absurd (List.mem_singleton.mp hmem) hany
  have hversions := respects_versionTags hblock pythonVersion
  have hversionsAny := respects_versionTags hbinary pythonVersion
  cases implementation with
  | cpython gilDisabled =>
      exact ((((hblock _ _).append (respects_cpythonTags hblock _ _)).append hversions).append
        (hbinary _ _)).append hversionsAny
  | _ =>
      exact ((((hblock _ _).append respects_nil).append hversions).append
        respects_nil).append hversionsAny

/-- The older tag has its first place in the reversed list before the newer one. -/
theorem Respects.priority_lt (hrespects : Respects newer older list) (hne : newer ≠ older)
    {tags : Tags} (hnew : new list = some tags) {py : LanguageTag} {abi : AbiTag} {high : ℕ}
    (hhigh : tags.priority py abi newer = some high) :
    ∃ low, tags.priority py abi older = some low ∧ low < high := by
  rw [priority_new hnew] at hhigh
  split at hhigh
  · rename_i hmem
    obtain ⟨before, after, rfl, hafter⟩ := hrespects py abi hmem
    have hold : (py, abi, older) ∈ before ++ (py, abi, older) :: after := by simp
    refine ⟨_, by rw [priority_new hnew, if_pos hold], ?_⟩
    have hfirst : (before ++ (py, abi, older) :: after).reverse =
        (after.reverse ++ [(py, abi, older)]) ++ before.reverse := by simp
    have hnotMem : (py, abi, newer) ∉ after.reverse ++ [(py, abi, older)] := by
      simp [hafter, hne]
    have hmemFirst : (py, abi, older) ∈ after.reverse ++ [(py, abi, older)] := by simp
    rw [← Option.some.inj hhigh, hfirst, List.idxOf_append_of_mem hmemFirst,
      List.idxOf_append_of_notMem hnotMem]
    have hlt := List.idxOf_lt_length_of_mem hmemFirst
    omega
  · exact absurd hhigh (by simp)

end Respects

end Tags

/-! ## Newer tags first -/

/-- In the list of the platform and in the priorities newer tags of a family come before older
ones, and the generic tag of Linux after those of some Linux versions. -/
def NewerWins (toLowercase : String → String) (platform : Platform) : Prop :=
  (∀ platformTags, compatibleTags toLowercase platform = .ok platformTags →
    platformTags.Pairwise PlatformTag.InOrder) ∧
  ∀ pythonVersion implementationName implementationVersion manylinuxCompatible gilDisabled tags,
    Tags.fromEnv toLowercase platform pythonVersion implementationName implementationVersion
      manylinuxCompatible gilDisabled = .ok (some tags) →
    ∀ py abi newer older high low,
      tags.priority py abi newer = some high → tags.priority py abi older = some low →
      ((∃ family, newer.family = some family ∧ older.family = some family) ∧
        older.version < newer.version ∨
      (newer.isManylinux = true ∨ newer.isMusllinux = true) ∧ older.isGenericLinux = true) →
      low < high

namespace Tags

variable {toLowercase : String → String} {platform : Platform} {pythonVersion : ℕ × ℕ}
  {implementationName : String} {implementationVersion : ℕ × ℕ}
  {manylinuxCompatible gilDisabled : Bool}

/-- The environment has the platform tags in the same order. -/
theorem pairwise_envPlatformTags {platformTags : List PlatformTag}
    (hok : envPlatformTags toLowercase platform manylinuxCompatible = .ok platformTags)
    (hmusl : ∀ major minor, platform.os ≠ .musllinux major minor) :
    platformTags.Pairwise PlatformTag.InOrder := by
  rw [envPlatformTags] at hok
  cases hcompatible : compatibleTags toLowercase platform with
  | error err => simp [hcompatible, Except.map] at hok
  | ok allTags =>
      have hall := pairwise_compatibleTags hcompatible hmusl
      rw [hcompatible] at hok
      obtain rfl := Except.ok.inj hok
      split
      · split
        · exact hall
        · exact hall.filter _
      · exact hall

theorem platform_of_mem_withPlatforms {platformTags : List PlatformTag} {py : LanguageTag}
    {abi : AbiTag} {tag : LanguageTag × AbiTag × PlatformTag}
    (hmem : tag ∈ withPlatforms platformTags py abi) : tag.2.2 ∈ platformTags := by
  obtain ⟨platformTag, hplatform, rfl⟩ := List.mem_map.mp hmem
  exact hplatform

theorem platform_of_mem_versionTags {platformTags : List PlatformTag}
    {tag : LanguageTag × AbiTag × PlatformTag}
    (hmem : tag ∈ versionTags platformTags pythonVersion) :
    tag.2.2 ∈ platformTags := by
  obtain ⟨minor, _, hmem⟩ := List.mem_flatMap.mp hmem
  rcases List.mem_append.mp hmem with hmem | hmem
  · exact platform_of_mem_withPlatforms hmem
  · split at hmem
    · exact platform_of_mem_withPlatforms hmem
    · exact absurd hmem List.not_mem_nil

theorem platform_of_mem_cpythonTags {platformTags : List PlatformTag}
    {tag : LanguageTag × AbiTag × PlatformTag}
    (hmem : tag ∈ cpythonTags platformTags gilDisabled pythonVersion) :
    tag.2.2 ∈ platformTags := by
  obtain ⟨minor, _, hmem⟩ := List.mem_flatMap.mp hmem
  rcases List.mem_append.mp hmem with hmem | hmem
  · split at hmem
    · exact absurd hmem List.not_mem_nil
    · exact platform_of_mem_withPlatforms hmem
  · split at hmem
    · exact platform_of_mem_withPlatforms hmem
    · exact absurd hmem List.not_mem_nil

/-- The platforms of all entries are those of the list, or none. -/
theorem platform_of_mem_envTags {platformTags : List PlatformTag} {implementation : Implementation}
    {tag : LanguageTag × AbiTag × PlatformTag}
    (hmem : tag ∈ envTags implementation platformTags pythonVersion implementationVersion) :
    tag.2.2 ∈ platformTags ∨ tag.2.2 = .any := by
  simp only [envTags, List.mem_append] at hmem
  rcases hmem with (((hmem | hmem) | hmem) | hmem) | hmem
  · exact .inl (platform_of_mem_withPlatforms hmem)
  · cases implementation with
    | cpython gilDisabled => exact .inl (platform_of_mem_cpythonTags hmem)
    | _ => exact absurd hmem List.not_mem_nil
  · exact .inl (platform_of_mem_versionTags hmem)
  · cases implementation with
    | cpython gilDisabled =>
        exact .inr (List.mem_singleton.mp (platform_of_mem_withPlatforms hmem))
    | _ => exact absurd hmem List.not_mem_nil
  · exact .inr (List.mem_singleton.mp (platform_of_mem_versionTags hmem))

/-- A tag that may not come after another one has the higher priority. -/
theorem priority_lt_of_not_inOrder {platformTags : List PlatformTag}
    {implementation : Implementation} {tags : Tags} {newer older : PlatformTag}
    (hpairwise : platformTags.Pairwise PlatformTag.InOrder)
    (hnew : new (envTags implementation platformTags pythonVersion implementationVersion) =
      some tags)
    (hnewer : newer ≠ .any) (holder : older ≠ .any) (hne : newer ≠ older)
    (hnot : ¬ PlatformTag.InOrder older newer) {py : LanguageTag} {abi : AbiTag} {high low : ℕ}
    (hhigh : tags.priority py abi newer = some high)
    (hlow : tags.priority py abi older = some low) : low < high := by
  have hmem : older ∈ platformTags := by
    rw [priority_new hnew] at hlow
    split at hlow
    · rename_i hmem
      exact (platform_of_mem_envTags hmem).resolve_right holder
    · exact absurd hlow (by simp)
  obtain ⟨before, after, heq⟩ := List.append_of_mem hmem
  have hafter : newer ∉ after := by
    intro hmem
    rw [heq] at hpairwise
    exact hnot ((List.pairwise_cons.mp (List.pairwise_append.mp hpairwise).2.1).1 newer hmem)
  have hblock : ∀ py abi, Respects newer older (withPlatforms platformTags py abi) :=
    respects_withPlatforms fun _ => ⟨before, after, heq, hafter⟩
  obtain ⟨priority, hpriority, hlt⟩ :=
    (respects_envTags hnewer hblock implementation pythonVersion implementationVersion).priority_lt
      hne hnew hhigh
  rw [hlow] at hpriority
  rwa [← Option.some.inj hpriority] at hlt

end Tags

section Platforms

variable (toLowercase : String → String) (platform : Platform)

/-- Newer tags win on every platform but `musllinux`. -/
theorem newerWins_iff :
    NewerWins toLowercase platform ↔ ∀ major minor, platform.os ≠ .musllinux major minor := by
  constructor
  · rintro ⟨hwins, -⟩ major minor hmusl
    have hok : compatibleTags toLowercase platform =
        .ok ([.linux platform.arch] ++ (List.range (minor + 1)).map fun minor =>
          .musllinux major minor platform.arch) := by
      rw [compatibleTags, hmusl]
    have hfirst := (List.pairwise_cons.mp (hwins _ hok)).1 (.musllinux major 0 platform.arch)
      (List.mem_map.mpr ⟨0, by simp, rfl⟩)
    exact absurd (hfirst.linuxLast rfl).2 (by simp [PlatformTag.isMusllinux])
  · intro hmusl
    refine ⟨fun platformTags hok => pairwise_compatibleTags hok hmusl, ?_⟩
    intro pythonVersion implementationName implementationVersion manylinuxCompatible gilDisabled
      tags henv py abi newer older high low hhigh hlow hbetter
    rw [Tags.fromEnv] at henv
    split at henv
    · exact absurd henv (by simp)
    split at henv
    · exact absurd henv (by simp)
    rename_i platformTags hplatform
    have hpairwise := Tags.pairwise_envPlatformTags hplatform hmusl
    have hnew := Except.ok.inj henv
    rcases hbetter with ⟨⟨family, hnewer, holder⟩, hlt⟩ | ⟨hlinux, hgeneric⟩
    · refine Tags.priority_lt_of_not_inOrder hpairwise hnew ?_ ?_ ?_ ?_ hhigh hlow
      · rintro rfl
        exact absurd hnewer (by simp [PlatformTag.family])
      · rintro rfl
        exact absurd holder (by simp [PlatformTag.family])
      · rintro rfl
        exact lt_irrefl _ hlt
      · exact fun horder => lt_asymm hlt (horder.newer family holder hnewer)
    · refine Tags.priority_lt_of_not_inOrder hpairwise hnew ?_ ?_ ?_ ?_ hhigh hlow
      · rintro rfl
        exact absurd hlinux (by simp [PlatformTag.isManylinux, PlatformTag.isMusllinux])
      · rintro rfl
        exact absurd hgeneric (by simp [PlatformTag.isGenericLinux])
      · rintro rfl
        cases newer <;>
          simp [PlatformTag.isManylinux, PlatformTag.isMusllinux, PlatformTag.isGenericLinux] at *
      · intro horder
        obtain ⟨hmany, hmusllinux⟩ := horder.linuxLast hgeneric
        simp [hmany, hmusllinux] at hlinux

/-- `musllinux_1_2` on `x86_64`: the list starts with `linux_x86_64`. -/
theorem not_newerWins : ¬ NewerWins id ⟨.musllinux 1 2, .x86_64⟩ := by
  rintro ⟨hwins, -⟩
  have horder := (List.pairwise_cons.mp (hwins _ rfl)).1 (.musllinux 1 0 .x86_64) (by decide)
  exact absurd (horder.linuxLast rfl).2 (by decide)

end Platforms

end Uv.PlatformTags
