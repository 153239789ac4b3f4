import Uv.DistributionFilename.WheelDisplay
import Uv.PlatformTags.TagRoundTrip

/-!
# Reading displayed wheel file names

A wheel with one tag of each kind is displayed with its parsed tags, any other with the text of
its tags.  Only the ABI tag can be read as another one.
-/

namespace Uv.DistributionFilename.WheelFilename

open Uv.Pep440 Uv.Pep508 Uv.PlatformTags
open Uv.DistributionTypes (BuildTag)

/-! ## The name and the version -/

/-- The displayed name and version are read again, before the same tags. -/
theorem parseParts_display (name : PackageName) {s : List Byte} {version : Version}
    (hversion : Version.fromStr s = .ok version) :
    ∃ version', version'.components = version.components ∧
      ∀ {filename : Text} {buildTag : Option Text} {build : Option BuildTag}
        {pythonTag abiTag platformTag repr : Text} {isSmall : Bool} {tags : WheelTag},
        buildTag.mapM BuildTag.fromStr = .ok build →
        parseTags build pythonTag abiTag platformTag isSmall (some repr) = some tags →
        parseParts filename name.asDistInfoName (versionText version) buildTag pythonTag abiTag
          platformTag isSmall (some repr) = some (.ok ⟨name, version', tags⟩) := by
  obtain ⟨version', hagain, hcomponents⟩ := Version.components_fromStr_display hversion
  refine ⟨version', hcomponents, ?_⟩
  intro filename buildTag build pythonTag abiTag platformTag repr isSmall tags hbuild htags
  unfold parseParts
  simp only [Name.fromStr_asDistInfoName, utf8_versionText hversion, hagain, hbuild, htags,
    Option.map_some]

theorem parseTags_small (repr : Text) {pythonText abiText platformText : Text}
    {pythonTag : LanguageTag} {abiTag : AbiTag} {platformTag : PlatformTag}
    (hpython : LanguageTag.fromStr pythonText = .ok pythonTag)
    (habi : AbiTag.fromStr abiText = .ok abiTag)
    (hplatform : PlatformTag.fromStr platformText = .ok platformTag) :
    parseTags none pythonText abiText platformText true (some repr) =
      some (.small ⟨pythonTag, abiTag, platformTag⟩) := by
  unfold parseTags
  simp only [hpython, habi, hplatform, if_true]

theorem fromStr_display_eq (wheel : WheelFilename) :
    fromStr wheel.display = parse (wheel.name.asDistInfoName ++ '-' ::
      (versionText wheel.version ++ '-' :: wheel.tags.display)) wheel.display := by
  have hstrip : stripSuffix ".whl".toList wheel.display = some (wheel.name.asDistInfoName ++
      '-' :: (versionText wheel.version ++ '-' :: wheel.tags.display)) :=
    stripSuffix_append _ _
  rw [fromStr, hstrip]

theorem dot_notMem_iff {text : Text} : (!('-' :: text).contains '.') = true ↔ '.' ∉ text := by
  simp

/-! ## Single tags -/

/-- A file name of five parts, with a known Python tag and a known platform tag. -/
structure SingleTags (filename name version pythonTag abiTag platformTag : Text) : Prop where
  filename_eq : filename =
    name ++ '-' :: (version ++ '-' :: tagsText pythonTag abiTag platformTag) ++ ".whl".toList
  dash_name : '-' ∉ name
  dash_version : '-' ∉ version
  dash_python : '-' ∉ pythonTag
  dash_abi : '-' ∉ abiTag
  dash_platform : '-' ∉ platformTag
  single : '.' ∉ tagsText pythonTag abiTag platformTag
  python : ∃ tag, LanguageTag.fromStr pythonTag = .ok tag
  platform : ∃ tag, PlatformTag.fromStr platformTag = .ok tag

section Parts

variable {filename name version buildTag pythonTag abiTag platformTag : Text}
  {name' version' pythonTag' abiTag' platformTag' : Text}

/-- A file name has its parts in one way. -/
theorem SingleTags.unique (hname : '-' ∉ name) (hversion : '-' ∉ version)
    (hpython : '-' ∉ pythonTag) (habi : '-' ∉ abiTag)
    (hfilename : filename =
      name ++ '-' :: (version ++ '-' :: tagsText pythonTag abiTag platformTag) ++ ".whl".toList)
    (hsingle : SingleTags filename name' version' pythonTag' abiTag' platformTag') :
    pythonTag' = pythonTag ∧ abiTag' = abiTag ∧ platformTag' = platformTag := by
  have heq := List.append_cancel_right (hsingle.filename_eq.symm.trans hfilename)
  obtain ⟨-, heq⟩ := dash_unique hsingle.dash_name hname heq
  obtain ⟨-, heq⟩ := dash_unique hsingle.dash_version hversion heq
  obtain ⟨hsamePython, heq⟩ := dash_unique hsingle.dash_python hpython heq
  obtain ⟨hsameAbi, hsamePlatform⟩ := dash_unique hsingle.dash_abi habi heq
  exact ⟨hsamePython, hsameAbi, hsamePlatform⟩

/-- A file name of six parts has no single tags. -/
theorem not_singleTags (hname : '-' ∉ name) (hversion : '-' ∉ version) (hbuild : '-' ∉ buildTag)
    (hpython : '-' ∉ pythonTag) (hfilename : filename = name ++ '-' :: (version ++ '-' ::
      (buildTag ++ '-' :: tagsText pythonTag abiTag platformTag)) ++ ".whl".toList) :
    ¬ SingleTags filename name' version' pythonTag' abiTag' platformTag' := by
  intro hsingle
  have heq := List.append_cancel_right (hsingle.filename_eq.symm.trans hfilename)
  obtain ⟨-, heq⟩ := dash_unique hsingle.dash_name hname heq
  obtain ⟨-, heq⟩ := dash_unique hsingle.dash_version hversion heq
  obtain ⟨-, heq⟩ := dash_unique hsingle.dash_python hbuild heq
  obtain ⟨-, heq⟩ := dash_unique hsingle.dash_abi hpython heq
  exact hsingle.dash_platform (heq ▸ by simp)

/-- The displayed single tags are read again, apart from the ABI tag. -/
theorem parse_display_small {wheel : WheelFilename} {s : List Byte} {small : WheelTagSmall}
    (hversion : Version.fromStr s = .ok wheel.version) (htags : wheel.tags = .small small)
    (hpython : LanguageTag.fromStr pythonTag = .ok small.pythonTag)
    (habi : AbiTag.fromStr abiTag = .ok small.abiTag)
    (hplatform : PlatformTag.fromStr platformTag = .ok small.platformTag)
    (hdash : '-' ∉ platformTag) (hdot : '.' ∉ platformTag) :
    ∃ version', version'.components = wheel.version.components ∧
      fromStr wheel.display = some (.ok ⟨wheel.name, version',
        .small ⟨small.pythonTag, small.abiTag.reread, small.platformTag⟩⟩) := by
  obtain ⟨version', hcomponents, hparts⟩ := parseParts_display wheel.name hversion
  refine ⟨version', hcomponents, ?_⟩
  obtain ⟨hplatformAgain, hplain⟩ := PlatformTag.roundTrips_of_fromStr hplatform
  have hplatformPlain := hplain fun c hc =>
    ⟨fun heq => hdash (heq ▸ hc), fun heq => hdot (heq ▸ hc)⟩
  have hpythonPlain := small.pythonTag.plain_display
  have habiPlain := small.abiTag.plain_display
  have hsingle : '.' ∉ tagsText small.pythonTag.display small.abiTag.display
      small.platformTag.display := by
    unfold tagsText
    simp only [List.mem_append, List.mem_cons, not_or]
    exact ⟨fun hmem => (hpythonPlain _ hmem).2 rfl, by decide,
      fun hmem => (habiPlain _ hmem).2 rfl, by decide, fun hmem => (hplatformPlain _ hmem).2 rfl⟩
  rw [fromStr_display_eq, htags, WheelTag.display,
    parse_five _ (dash_notMem_asDistInfoName _) (dash_notMem_versionText hversion)
      (fun hmem => (hpythonPlain _ hmem).1 rfl) (fun hmem => (habiPlain _ hmem).1 rfl)
      (fun hmem => (hplatformPlain _ hmem).1 rfl), dot_notMem_iff.mpr hsingle]
  have hpythonAgain := LanguageTag.fromStr_display (LanguageTag.fits_of_fromStr hpython)
  have habiAgain := AbiTag.fromStr_display (AbiTag.fits_of_fromStr habi)
  exact hparts rfl (parseTags_small _ hpythonAgain habiAgain hplatformAgain)

end Parts

/-! ## The round trip -/

/-- The wheel that the displayed file name is read as is the same. -/
def RoundTrips (wheel : WheelFilename) : Prop :=
  ∃ again, fromStr wheel.display = some (.ok again) ∧ again.name = wheel.name ∧
    again.version.components = wheel.version.components ∧ again.tags = wheel.tags

/-- Tags whose text was kept are read again, where they are found behind any name and version. -/
theorem roundTrips_of_kept {wheel : WheelFilename} {s : List Byte} {buildTag : Option Text}
    {build : Option BuildTag} {pythonTag abiTag platformTag repr : Text} {isSmall : Bool}
    (hversion : Version.fromStr s = .ok wheel.version)
    (hbuild : buildTag.mapM BuildTag.fromStr = .ok build)
    (htags : parseTags build pythonTag abiTag platformTag isSmall (some repr) = some wheel.tags)
    (hparse : ∀ {name version : Text}, '-' ∉ name → '-' ∉ version →
      parse (name ++ '-' :: (version ++ '-' :: wheel.tags.display)) wheel.display =
        parseParts wheel.display name version buildTag pythonTag abiTag platformTag isSmall
          (some repr)) : wheel.RoundTrips := by
  obtain ⟨version', hcomponents, hagain⟩ := parseParts_display wheel.name hversion
  refine ⟨⟨wheel.name, version', wheel.tags⟩, ?_, rfl, hcomponents, rfl⟩
  rw [fromStr_display_eq,
    hparse (dash_notMem_asDistInfoName _) (dash_notMem_versionText hversion)]
  exact hagain hbuild htags

/-- Single tags are read again exactly where the ABI tag is. -/
theorem roundTrips_small_iff {wheel : WheelFilename} {s : List Byte} {small : WheelTagSmall}
    {pythonTag abiTag platformTag : Text} (hversion : Version.fromStr s = .ok wheel.version)
    (htags : wheel.tags = .small small)
    (hpython : LanguageTag.fromStr pythonTag = .ok small.pythonTag)
    (habi : AbiTag.fromStr abiTag = .ok small.abiTag)
    (hplatform : PlatformTag.fromStr platformTag = .ok small.platformTag)
    (hdash : '-' ∉ platformTag) (hdot : '.' ∉ platformTag) :
    wheel.RoundTrips ↔ ¬ AbiTag.DisplayedWithM abiTag := by
  obtain ⟨version', hcomponents, hagain⟩ :=
    parse_display_small hversion htags hpython habi hplatform hdash hdot
  rw [← AbiTag.reread_eq_iff habi]
  constructor
  · rintro ⟨again, hread, -, -, hsame⟩
    obtain rfl := Except.ok.inj (Option.some.inj (hagain.symm.trans hread))
    rw [htags] at hsame
    exact congrArg WheelTagSmall.abiTag (WheelTag.small.inj hsame)
  · intro hsame
    exact ⟨_, hagain, rfl, hcomponents, by rw [htags, hsame]⟩

/-- A wheel file name that was read is displayed and read as the same wheel, unless it has single
tags and an old CPython ABI with a `t`. -/
theorem roundTrips_iff {filename : Text} {wheel : WheelFilename}
    (hparse : fromStr filename = some (.ok wheel)) :
    wheel.RoundTrips ↔ ∀ name version pythonTag abiTag platformTag,
      SingleTags filename name version pythonTag abiTag platformTag →
        ¬ AbiTag.DisplayedWithM abiTag := by
  unfold fromStr at hparse
  split at hparse
  · cases hparse
  rename_i stem hstem
  have hfilename := stripSuffix_eq_some hstem
  rcases parse_eq_ok hparse with ⟨name, version, pythonTag, abiTag, platformTag, hname, hversion,
    hpython, habi, hplatform, rfl, hparts⟩ | ⟨name, version, buildTag, pythonTag, abiTag,
    platformTag, hname, hversion, hbuild, hpython, habi, hplatform, rfl, hparts⟩
  · obtain ⟨-, hnumber, build, hbuild, htags⟩ := parseParts_eq_ok hparts
    obtain rfl : none = build := Except.ok.inj hbuild
    rcases parseTags_eq_some htags with ⟨hsmall, small, hwheel, hreadPython, hreadAbi,
      hreadPlatform⟩ | ⟨large, hwheel, hrepr⟩
    · have hsingle := dot_notMem_iff.mp hsmall
      have hdot : '.' ∉ platformTag := fun hmem => hsingle (by simp [tagsText, hmem])
      rw [roundTrips_small_iff hnumber hwheel hreadPython hreadAbi hreadPlatform hplatform hdot]
      constructor
      · intro hold name' version' pythonTag' abiTag' platformTag' hparts'
        rwa [(hparts'.unique hname hversion hpython habi hfilename).2.1]
      · intro hall
        exact hall name version pythonTag abiTag platformTag ⟨hfilename, hname, hversion, hpython,
          habi, hplatform, hsingle, ⟨_, hreadPython⟩, ⟨_, hreadPlatform⟩⟩
    · have hdisplay : wheel.tags.display = tagsText pythonTag abiTag platformTag := by
        rw [hwheel]
        exact hrepr
      refine iff_of_true (roundTrips_of_kept hnumber hbuild htags ?_) ?_
      · intro name' version' hname' hversion'
        rw [hdisplay]
        exact parse_five _ hname' hversion' hpython habi hplatform
      · -- otherwise the tags would have been single
        intro name' version' pythonTag' abiTag' platformTag' hparts' hold
        obtain ⟨rfl, rfl, rfl⟩ := hparts'.unique hname hversion hpython habi hfilename
        obtain ⟨major, minor, hreadAbi, -⟩ := AbiTag.fromStr_of_displayedWithM hold
        obtain ⟨pythonTag, hreadPython⟩ := hparts'.python
        obtain ⟨platformTag, hreadPlatform⟩ := hparts'.platform
        have hsmall := parseTags_small (tagsText pythonTag' abiTag' platformTag') hreadPython
          hreadAbi hreadPlatform
        rw [dot_notMem_iff.mpr hparts'.single, hsmall, hwheel] at htags
        cases htags
  · obtain ⟨-, hnumber, build, hreadBuild, htags⟩ := parseParts_eq_ok hparts
    rcases parseTags_eq_some htags with ⟨hsmall, -⟩ | ⟨large, hwheel, hrepr⟩
    · cases hsmall
    have hdisplay : wheel.tags.display = buildTag ++ '-' ::
        tagsText pythonTag abiTag platformTag := by
      rw [hwheel]
      exact hrepr
    refine iff_of_true (roundTrips_of_kept hnumber hreadBuild htags ?_) ?_
    · intro name' version' hname' hversion'
      rw [hdisplay]
      exact parse_six _ hname' hversion' hbuild hpython habi hplatform
    · intro name' version' pythonTag' abiTag' platformTag' hparts'
      exact absurd hparts' (not_singleTags hname hversion hbuild hpython hfilename)

/-- A wheel of CPython 3.10. -/
theorem roundTrips_cp310 : ∃ wheel,
    fromStr "foo_bar-1.0.post-cp310-cp310-manylinux_2_017_x86_64.whl".toList = some (.ok wheel) ∧
    (wheel.RoundTrips ↔ ∀ name version pythonTag abiTag platformTag,
      SingleTags "foo_bar-1.0.post-cp310-cp310-manylinux_2_017_x86_64.whl".toList name version
        pythonTag abiTag platformTag → ¬ AbiTag.DisplayedWithM abiTag) := by
  have hread : ((fromStr "foo_bar-1.0.post-cp310-cp310-manylinux_2_017_x86_64.whl".toList).bind
      Except.toOption).map (fun wheel => wheel.tags.abiTags) =
        some [.cpython false 3 10] := by
    decide +kernel
  obtain ⟨wheel, hwheel, -⟩ := exists_ok _ hread
  exact ⟨wheel, hwheel, roundTrips_iff hwheel⟩

/-- A wheel of a free-threaded CPython 3.7 is displayed as one of CPython 3.7 with `m`. -/
theorem not_roundTrips : ∃ wheel,
    fromStr "foo-1.0-cp37-cp37t-linux_x86_64.whl".toList = some (.ok wheel) ∧
    wheel.display = "foo-1.0-cp37-cp37m-linux_x86_64.whl".toList ∧ ¬ wheel.RoundTrips := by
  have hread : ((fromStr "foo-1.0-cp37-cp37t-linux_x86_64.whl".toList).bind
      Except.toOption).map (fun wheel => (wheel.tags.abiTags, wheel.display,
        ((fromStr wheel.display).bind Except.toOption).map fun wheel => wheel.tags.abiTags)) =
      some ([.cpython true 3 7], "foo-1.0-cp37-cp37m-linux_x86_64.whl".toList,
        some [.cpython false 3 7]) := by
    decide +kernel
  obtain ⟨wheel, hwheel, hasked⟩ := exists_ok _ hread
  simp only [Prod.mk.injEq] at hasked
  obtain ⟨htags, hdisplay, hagain⟩ := hasked
  refine ⟨wheel, hwheel, hdisplay, ?_⟩
  rintro ⟨again, hreread, -, -, hsame⟩
  rw [hreread] at hagain
  have htagsAgain : again.tags.abiTags = [.cpython false 3 7] := Option.some.inj hagain
  rw [hsame, htags] at htagsAgain
  exact absurd htagsAgain (by decide)

end Uv.DistributionFilename.WheelFilename
