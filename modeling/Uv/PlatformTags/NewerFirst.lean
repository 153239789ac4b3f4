import Uv.PlatformTags.CompatibleTags

/-!
# The order of the tags of a platform

Tags of one family differ in a version.  On every platform but `musllinux` the newer versions
come first, and the generic tag of Linux comes last.
-/

namespace Uv.PlatformTags

inductive Family where
  | manylinux
  | musllinux
  | macos (binaryFormat : BinaryFormat)
  | android
  | ios
  deriving DecidableEq

namespace PlatformTag

def family : PlatformTag → Option Family
  | .manylinux .. => some .manylinux
  | .musllinux .. => some .musllinux
  | .macos _ _ binaryFormat => some (.macos binaryFormat)
  | .android .. => some .android
  | .ios .. => some .ios
  | _ => none

/-- The version of a tag that belongs to a family. -/
def version : PlatformTag → ℕ ×ₗ ℕ
  | .manylinux major minor _ => toLex (major, minor)
  | .musllinux major minor _ => toLex (major, minor)
  | .macos major minor _ => toLex (major, minor)
  | .android apiLevel _ => toLex (apiLevel, 0)
  | .ios major minor _ => toLex (major, minor)
  | _ => toLex (0, 0)

def isManylinux : PlatformTag → Bool
  | .manylinux .. | .manylinux1 _ | .manylinux2010 _ | .manylinux2014 _ => true
  | _ => false

def isMusllinux : PlatformTag → Bool
  | .musllinux .. => true
  | _ => false

/-- The tag of every Linux. -/
def isGenericLinux : PlatformTag → Bool
  | .linux _ => true
  | _ => false

/-- The later tag is older if both are of one family, and does not come after the generic tag
of Linux if it is a tag of some Linux versions. -/
structure InOrder (earlier later : PlatformTag) : Prop where
  newer : ∀ family, earlier.family = some family → later.family = some family →
    later.version < earlier.version
  linuxLast : earlier.isGenericLinux = true →
    later.isManylinux = false ∧ later.isMusllinux = false

theorem inOrder_of_lt {earlier later : PlatformTag} (hlinux : earlier.isGenericLinux = false)
    (hlt : later.version < earlier.version) : InOrder earlier later :=
  ⟨fun _ _ _ => hlt, fun h => absurd h (by simp [hlinux])⟩

theorem inOrder_of_family {earlier later : PlatformTag} (hlinux : earlier.isGenericLinux = false)
    (hfamily : earlier.family = later.family → later.family = none) : InOrder earlier later :=
  ⟨fun _ hearlier hlater => by simp [hfamily (hearlier.trans hlater.symm)] at hlater,
    fun h => absurd h (by simp [hlinux])⟩

end PlatformTag

open PlatformTag

/-! ## Numbers -/

theorem mem_downTo {first last n : ℕ} : n ∈ downTo first last ↔ first ≤ n ∧ n ≤ last := by
  rw [downTo, List.mem_reverse, List.mem_range'_1]
  omega

theorem pairwise_downTo (first last : ℕ) : (downTo first last).Pairwise (· > ·) := by
  rw [downTo, List.pairwise_reverse]
  exact List.pairwise_lt_range'

theorem version_lt_of_minor {major first second : ℕ} (hlt : second < first) :
    toLex (major, second) < toLex (major, first) :=
  Prod.Lex.toLex_lt_toLex.mpr (.inr ⟨rfl, hlt⟩)

theorem version_lt_of_major {major other first second : ℕ} (hlt : other < major) :
    toLex (other, second) < toLex (major, first) :=
  Prod.Lex.toLex_lt_toLex.mpr (.inl hlt)

/-! ## Linux -/

/-- The tags of one minor version are the tag itself and legacy tags without a family. -/
theorem mem_manylinuxTags {major minor : ℕ} {arch : Arch} {tag : PlatformTag}
    (hmem : tag ∈ manylinuxTags major arch minor) : tag.isGenericLinux = false ∧
      (tag = .manylinux major minor arch ∨ tag.family = none) := by
  simp only [manylinuxTags, List.mem_append, List.mem_singleton] at hmem
  rcases hmem with ((rfl | hmem) | hmem) | hmem
  · exact ⟨rfl, .inl rfl⟩
  all_goals
    split at hmem
    · rw [List.mem_singleton.mp hmem]
      exact ⟨rfl, .inr rfl⟩
    · exact absurd hmem List.not_mem_nil

theorem pairwise_manylinuxTags (major minor : ℕ) (arch : Arch) :
    (manylinuxTags major arch minor).Pairwise InOrder := by
  have hlegacy {legacy : PlatformTag} (hfamily : legacy.family = none) :
      [PlatformTag.manylinux major minor arch, legacy].Pairwise InOrder :=
    List.pairwise_pair.mpr (inOrder_of_family rfl fun _ => hfamily)
  by_cases h12 : minor = 12
  · subst h12
    exact hlegacy rfl
  by_cases h17 : minor = 17
  · subst h17
    exact hlegacy rfl
  by_cases h5 : minor = 5
  · subst h5
    exact hlegacy rfl
  rw [manylinuxTags, if_neg h12, if_neg h17, if_neg h5]
  exact List.pairwise_singleton ..

theorem pairwise_manylinux (major first minor : ℕ) (arch : Arch) :
    ((downTo first minor).flatMap (manylinuxTags major arch)).Pairwise InOrder := by
  refine List.pairwise_flatMap.mpr ⟨fun minor _ => pairwise_manylinuxTags major minor arch, ?_⟩
  refine (pairwise_downTo first minor).imp ?_
  intro newer older hlt earlier hearlier later hlater
  obtain ⟨hlinux, hearlier⟩ := mem_manylinuxTags hearlier
  obtain ⟨-, hlater⟩ := mem_manylinuxTags hlater
  rcases hlater with rfl | hlater
  · rcases hearlier with rfl | hearlier
    · exact inOrder_of_lt rfl (version_lt_of_minor hlt)
    · exact inOrder_of_family hlinux fun hfamily => hfamily.symm.trans hearlier
  · exact inOrder_of_family hlinux fun _ => hlater

/-! ## macOS -/

/-- The tags of one version of macOS are of different families. -/
theorem pairwise_macosTags (arch : Arch) (major minor : ℕ) :
    (macosTags arch major minor).Pairwise InOrder := by
  have hnodup : (BinaryFormat.fromArch arch).Nodup := by cases arch <;> decide
  refine List.pairwise_map.mpr (hnodup.imp fun {first second} hne => ?_)
  refine inOrder_of_family rfl fun hfamily => absurd ?_ hne
  simpa [family] using hfamily

theorem pairwise_macos_minor (arch : Arch) (first last : ℕ) :
    ((downTo first last).flatMap (macosTags arch 10)).Pairwise InOrder := by
  refine List.pairwise_flatMap.mpr ⟨fun minor _ => pairwise_macosTags arch 10 minor, ?_⟩
  refine (pairwise_downTo first last).imp fun hlt earlier hearlier later hlater => ?_
  obtain ⟨_, _, rfl⟩ := List.mem_map.mp hearlier
  obtain ⟨_, _, rfl⟩ := List.mem_map.mp hlater
  exact inOrder_of_lt rfl (version_lt_of_minor hlt)

theorem pairwise_macos_major (arch : Arch) (major : ℕ) :
    ((downTo 11 major).flatMap (fun major => macosTags arch major 0)).Pairwise InOrder := by
  refine List.pairwise_flatMap.mpr ⟨fun major _ => pairwise_macosTags arch major 0, ?_⟩
  refine (pairwise_downTo 11 major).imp fun hlt earlier hearlier later hlater => ?_
  obtain ⟨_, _, rfl⟩ := List.mem_map.mp hearlier
  obtain ⟨_, _, rfl⟩ := List.mem_map.mp hlater
  exact inOrder_of_lt rfl (version_lt_of_major hlt)

/-- From macOS 11 on, the versions before it come last. -/
theorem pairwise_macos {arch : Arch} {major : ℕ} {tags : List PlatformTag}
    (hpairwise : tags.Pairwise InOrder)
    (htags : ∀ tag ∈ tags, ∃ minor binaryFormat, tag = .macos 10 minor binaryFormat) :
    ((downTo 11 major).flatMap (fun major => macosTags arch major 0) ++ tags).Pairwise InOrder := by
  refine List.pairwise_append.mpr ⟨pairwise_macos_major arch major, hpairwise, ?_⟩
  intro earlier hearlier later hlater
  obtain ⟨minor, binaryFormat, rfl⟩ := htags later hlater
  obtain ⟨newer, hnewer, hearlier⟩ := List.mem_flatMap.mp hearlier
  obtain ⟨_, _, rfl⟩ := List.mem_map.mp hearlier
  exact inOrder_of_lt rfl (version_lt_of_major (mem_downTo.mp hnewer).1)

/-! ## Android and iOS -/

theorem androidTags_eq {arch : Arch} {apiLevel : ℕ} {tags : List PlatformTag}
    (hok : androidTags arch apiLevel = .ok tags) :
    ∃ abi, tags = (downTo 16 apiLevel).map fun ver => .android ver abi := by
  rw [androidTags] at hok
  cases habi : AndroidAbi.fromArch arch with
  | ok abi =>
      simp only [habi] at hok
      exact ⟨abi, (Except.ok.inj (List.mapM_pure.symm.trans hok)).symm⟩
  | error message =>
      simp only [habi] at hok
      cases hlevels : downTo 16 apiLevel with
      | nil =>
          rw [hlevels] at hok
          exact ⟨.x86, (Except.ok.inj hok).symm⟩
      | cons level levels =>
          rw [hlevels, List.mapM_cons] at hok
          exact absurd hok (by simp [bind, Except.bind])

theorem pairwise_android (abi : AndroidAbi) (first last : ℕ) :
    ((downTo first last).map fun ver => PlatformTag.android ver abi).Pairwise InOrder :=
  List.pairwise_map.mpr ((pairwise_downTo first last).imp fun hlt =>
    inOrder_of_lt rfl (version_lt_of_major hlt))

theorem pairwise_ios_minor {minors : List ℕ} (hpairwise : minors.Pairwise (· > ·)) (major : ℕ)
    (multiarch : IosMultiarch) :
    (minors.map fun minor => PlatformTag.ios major minor multiarch).Pairwise InOrder := by
  refine List.pairwise_map.mpr (hpairwise.imp ?_)
  intro newer older hlt
  exact inOrder_of_lt rfl (version_lt_of_minor hlt)

/-- The version that was asked for, earlier versions of that year, and earlier years. -/
theorem pairwise_iosTags (multiarch : IosMultiarch) (major minor : ℕ) :
    (iosTags multiarch major minor).Pairwise InOrder := by
  rw [iosTags]
  split
  · exact List.Pairwise.nil
  have hminors : (List.range minor).reverse.Pairwise (· > ·) :=
    List.pairwise_reverse.mpr List.pairwise_lt_range
  have hmajors : (List.range' 12 (major - 12)).reverse.Pairwise (· > ·) :=
    List.pairwise_reverse.mpr List.pairwise_lt_range'
  have holder : ∀ newer, ∀ later ∈ (List.range' 12 (major - 12)).reverse.flatMap fun major =>
      (downTo 0 9).map fun minor => PlatformTag.ios major minor multiarch,
      InOrder (.ios major newer multiarch) later := by
    intro newer later hlater
    obtain ⟨older, holder, hlater⟩ := List.mem_flatMap.mp hlater
    obtain ⟨_, _, rfl⟩ := List.mem_map.mp hlater
    have hlt : older < major := by
      have hrange := List.mem_range'_1.mp (List.mem_reverse.mp holder)
      omega
    exact inOrder_of_lt rfl (version_lt_of_major hlt)
  rw [List.singleton_append, List.cons_append]
  refine List.pairwise_cons.mpr ⟨?_, List.pairwise_append.mpr
    ⟨pairwise_ios_minor hminors major multiarch, List.pairwise_flatMap.mpr
      ⟨fun major _ => pairwise_ios_minor (pairwise_downTo 0 9) major multiarch, ?_⟩, ?_⟩⟩
  · intro later hlater
    rcases List.mem_append.mp hlater with hlater | hlater
    · obtain ⟨older, holder, rfl⟩ := List.mem_map.mp hlater
      have hlt : older < minor := by simpa using holder
      exact inOrder_of_lt rfl (version_lt_of_minor hlt)
    · exact holder minor later hlater
  · refine hmajors.imp fun hlt earlier hearlier later hlater => ?_
    obtain ⟨_, _, rfl⟩ := List.mem_map.mp hearlier
    obtain ⟨_, _, rfl⟩ := List.mem_map.mp hlater
    exact inOrder_of_lt rfl (version_lt_of_major hlt)
  · intro earlier hearlier later hlater
    obtain ⟨newer, _, rfl⟩ := List.mem_map.mp hearlier
    exact holder newer later hlater

/-! ## Every platform -/

theorem illumosTags_eq {release arch : String} {tags : List PlatformTag}
    (hok : illumosTags release arch = .ok tags) : ∃ tag, tags = [tag] := by
  unfold illumosTags at hok
  split at hok
  · exact ⟨_, (Except.ok.inj hok).symm⟩
  · split at hok
    · exact absurd hok (by simp)
    · split at hok
      · exact ⟨_, (Except.ok.inj hok).symm⟩
      · exact ⟨_, (Except.ok.inj hok).symm⟩

/-- `musllinux` alone has its versions the wrong way round, after the generic tag. -/
theorem pairwise_compatibleTags {toLowercase : String → String} {platform : Platform}
    {tags : List PlatformTag} (hok : compatibleTags toLowercase platform = .ok tags)
    (hmusl : ∀ major minor, platform.os ≠ .musllinux major minor) : tags.Pairwise InOrder := by
  obtain ⟨os, arch⟩ := platform
  have hten (minors : List ℕ) : ∀ tag ∈ minors.flatMap (macosTags arch 10),
      ∃ minor binaryFormat, tag = .macos 10 minor binaryFormat := by
    intro tag hmem
    obtain ⟨minor, _, hmem⟩ := List.mem_flatMap.mp hmem
    obtain ⟨binaryFormat, _, rfl⟩ := List.mem_map.mp hmem
    exact ⟨minor, binaryFormat, rfl⟩
  cases os with
  | manylinux major minor =>
      obtain rfl := Except.ok.inj hok
      refine List.pairwise_append.mpr ⟨?_, List.pairwise_singleton .., ?_⟩
      · cases arch.getMinimumManylinuxMinor with
        | none => exact List.Pairwise.nil
        | some minMinor => exact pairwise_manylinux major minMinor minor arch
      · intro earlier hearlier later hlater
        rw [List.mem_singleton.mp hlater]
        refine inOrder_of_family ?_ fun _ => rfl
        cases hmin : arch.getMinimumManylinuxMinor with
        | none => simp [hmin] at hearlier
        | some minMinor =>
            simp only [hmin] at hearlier
            obtain ⟨_, _, hmem⟩ := List.mem_flatMap.mp hearlier
            exact (mem_manylinuxTags hmem).1
  | musllinux major minor => exact absurd rfl (hmusl major minor)
  | macos major minor =>
      by_cases hx86 : arch = .x86_64
      · subst hx86
        simp only [compatibleTags] at hok
        split at hok
        · obtain rfl := Except.ok.inj hok
          exact pairwise_macos_minor ..
        split at hok
        · obtain rfl := Except.ok.inj hok
          exact pairwise_macos (pairwise_macos_minor ..) (hten _)
        · exact absurd hok (by simp)
      by_cases harm : arch = .aarch64
      · subst harm
        obtain rfl := Except.ok.inj hok
        refine pairwise_macos (List.pairwise_map.mpr ((pairwise_downTo 4 16).imp ?_)) ?_
        · intro newer older hlt
          exact inOrder_of_lt rfl (version_lt_of_minor hlt)
        · intro tag hmem
          obtain ⟨minor, _, rfl⟩ := List.mem_map.mp hmem
          exact ⟨minor, .universal2, rfl⟩
      · cases arch <;> contradiction
  | windows =>
      cases arch <;> first
        | (obtain rfl := Except.ok.inj hok
           exact List.pairwise_singleton ..)
        | contradiction
  | pyodide major minor =>
      cases arch <;> first
        | (obtain rfl := Except.ok.inj hok
           exact List.pairwise_singleton ..)
        | contradiction
  | illumos release illumosArch =>
      have hok : illumosTags release illumosArch = .ok tags := hok
      obtain ⟨tag, rfl⟩ := illumosTags_eq hok
      exact List.pairwise_singleton ..
  | android apiLevel =>
      obtain ⟨abi, rfl⟩ := androidTags_eq hok
      exact pairwise_android abi 16 apiLevel
  | ios major minor simulator =>
      simp only [compatibleTags] at hok
      split at hok
      · exact absurd hok (by simp)
      · obtain rfl := Except.ok.inj hok
        exact pairwise_iosTags ..
  | _ =>
      obtain rfl := Except.ok.inj hok
      exact List.pairwise_singleton ..

end Uv.PlatformTags
