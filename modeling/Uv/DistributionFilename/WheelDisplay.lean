import Uv.DistributionFilename.Wheel

/-!
# Wheel file names as text

The name, the version and the tags with dashes between them.  A displayed version has no dash, and
its bytes are ASCII.
-/

namespace Uv.DistributionFilename

open Uv.Pep440 Uv.Pep508 Uv.PlatformTags
open Uv.DistributionTypes (BuildTag)

/-! ## Versions -/

/-- The bytes of a displayed version. -/
def IsVersionByte (byte : Byte) : Prop :=
  Byte.isAsciiAlphanumeric byte = true ∨ byte.val = 33 ∨ byte.val = 43 ∨ byte.val = 46

instance : DecidablePred IsVersionByte := fun byte =>
  inferInstanceAs (Decidable (Byte.isAsciiAlphanumeric byte = true ∨ byte.val = 33 ∨
    byte.val = 43 ∨ byte.val = 46))

def charOfByte (byte : Byte) : Char := Char.ofNat byte.val

/-- A displayed version, by its characters. -/
def versionText (version : Version) : Text := version.display.map charOfByte

theorem isVersionByte_displayNat {n : ℕ} {byte : Byte} (hbyte : byte ∈ Pep440.displayNat n) :
    IsVersionByte byte := by
  left
  rw [Byte.isAsciiAlphanumeric, isAsciiDigit_displayNat hbyte]
  rfl

theorem isVersionByte_intercalate {texts : List (List Byte)}
    (htexts : ∀ text ∈ texts, ∀ byte ∈ text, IsVersionByte byte) :
    ∀ byte ∈ (ascii ".").intercalate texts, IsVersionByte byte := by
  induction texts with
  | nil => intro byte hbyte; cases hbyte
  | cons text texts ih =>
      cases texts with
      | nil =>
          rw [List.intercalate_singleton]
          exact htexts text (by simp)
      | cons other texts =>
          rw [List.intercalate_cons_cons]
          intro byte hbyte
          rcases List.mem_append.mp hbyte with hbyte | hbyte
          · rcases List.mem_append.mp hbyte with hbyte | hbyte
            · exact htexts text (by simp) byte hbyte
            · rw [List.mem_singleton.mp hbyte]
              exact .inr (.inr (.inr rfl))
          · exact ih (fun t ht => htexts t (List.mem_cons_of_mem _ ht)) byte hbyte

/-- A version as the parser stores it is displayed with these bytes. -/
theorem isVersionByte_display {version : Version} (hstored : version.makeFull.Stored) :
    ∀ byte ∈ version.display, IsVersionByte byte := by
  obtain ⟨parts, hlocal, hparts⟩ := hstored.localVersion
  rw [← Version.localVersion_eq] at hlocal
  rw [version.display_eq hlocal]
  simp only [List.forall_mem_append]
  refine ⟨?_, ?_, ?_, ?_, ?_, ?_⟩
  · unfold displayEpoch
    split
    · simp only [List.forall_mem_append]
      exact ⟨fun byte => isVersionByte_displayNat, by decide +kernel⟩
    · simp
  · refine isVersionByte_intercalate ?_
    intro text htext byte hbyte
    obtain ⟨n, -, rfl⟩ := List.mem_map.mp htext
    exact isVersionByte_displayNat hbyte
  · unfold displayPre
    cases version.pre with
    | none => simp
    | some pre =>
        rw [Option.map_some, Option.getD_some, Prerelease.display]
        simp only [List.forall_mem_append]
        refine ⟨?_, fun byte => isVersionByte_displayNat⟩
        cases pre.kind <;> decide +kernel
  · unfold displayPost
    cases version.post with
    | none => simp
    | some post =>
        simp only [Option.map_some, Option.getD_some, List.forall_mem_append]
        exact ⟨by decide +kernel, fun byte => isVersionByte_displayNat⟩
  · unfold displayDev
    cases version.dev with
    | none => simp
    | some dev =>
        simp only [Option.map_some, Option.getD_some, List.forall_mem_append]
        exact ⟨by decide +kernel, fun byte => isVersionByte_displayNat⟩
  · unfold displayLocal
    split
    · simp
    · simp only [List.forall_mem_append]
      refine ⟨by decide +kernel, isVersionByte_intercalate ?_⟩
      intro text htext byte hbyte
      obtain ⟨segment, hsegment, rfl⟩ := List.mem_map.mp htext
      exact .inl ((hparts segment hsegment).alphanumeric byte hbyte)

/-- Such a byte is a character of its own, and no dash. -/
theorem charOfByte_facts {byte : Byte} (hbyte : IsVersionByte byte) :
    (charOfByte byte).utf8Size = 1 ∧ charOfByte byte ≠ '-' ∧
      (String.utf8EncodeChar (charOfByte byte)).map UInt8.toFin = [byte] := by
  have hall : ∀ byte : Byte, IsVersionByte byte → (charOfByte byte).utf8Size = 1 ∧
      charOfByte byte ≠ '-' ∧
      (String.utf8EncodeChar (charOfByte byte)).map UInt8.toFin = [byte] := by
    decide +kernel
  exact hall byte hbyte

section VersionText

variable {s : List Byte} {version : Version} (hparse : Version.fromStr s = .ok version)

include hparse

theorem oneByte_versionText : OneByte (versionText version) := by
  intro c hc
  obtain ⟨byte, hbyte, rfl⟩ := List.mem_map.mp hc
  exact (charOfByte_facts (isVersionByte_display (Version.stored_of_fromStr hparse).1 byte hbyte)).1

theorem dash_notMem_versionText : '-' ∉ versionText version := by
  intro hmem
  obtain ⟨byte, hbyte, heq⟩ := List.mem_map.mp hmem
  exact (charOfByte_facts
    (isVersionByte_display (Version.stored_of_fromStr hparse).1 byte hbyte)).2.1 heq

theorem utf8_versionText : VersionSpecifier.utf8 (versionText version) = version.display := by
  have hbytes := isVersionByte_display (Version.stored_of_fromStr hparse).1
  unfold VersionSpecifier.utf8 versionText
  revert hbytes
  induction version.display with
  | nil => exact fun _ => rfl
  | cons byte rest ih =>
      intro hbytes
      obtain ⟨hbyte, hrest⟩ := List.forall_mem_cons.mp hbytes
      rw [List.map_cons, List.flatMap_cons, List.map_append, ih hrest,
        (charOfByte_facts hbyte).2.2]
      rfl

end VersionText

/-! ## Tags -/

/-- `Display for WheelTag`. -/
def WheelTag.display : WheelTag → Text
  | .small tag =>
      WheelFilename.tagsText tag.pythonTag.display tag.abiTag.display tag.platformTag.display
  | .large tag => tag.repr

/-- A text with two dashes or more. -/
def TwoDashes (text : Text) : Prop :=
  ∃ first second third, text = first ++ '-' :: (second ++ '-' :: third)

namespace WheelFilename

/-- `Display for WheelFilename`. -/
def display (filename : WheelFilename) : Text :=
  filename.name.asDistInfoName ++ '-' :: (versionText filename.version ++ '-' ::
    filename.tags.display) ++ ".whl".toList

/-- `WheelFilename::new`. -/
def new (name : PackageName) (version : Version) (pythonTag : LanguageTag) (abiTag : AbiTag)
    (platformTag : PlatformTag) : WheelFilename :=
  ⟨name, version, .small ⟨pythonTag, abiTag, platformTag⟩⟩

/-- What a successful run has read. -/
theorem parseParts_eq_ok {filename name version : Text} {buildTag : Option Text}
    {pythonTag abiTag platformTag repr : Text} {isSmall : Bool} {wheel : WheelFilename}
    (hparse : parseParts filename name version buildTag pythonTag abiTag platformTag isSmall
      (some repr) = some (.ok wheel)) :
    Name.fromStr name = some wheel.name ∧
      Version.fromStr (VersionSpecifier.utf8 version) = .ok wheel.version ∧
      ∃ build, buildTag.mapM BuildTag.fromStr = .ok build ∧
        parseTags build pythonTag abiTag platformTag isSmall (some repr) = some wheel.tags := by
  unfold parseParts at hparse
  split at hparse
  · cases hparse
  rename_i packageName hname
  split at hparse
  · cases hparse
  rename_i number hversion
  split at hparse
  · cases hparse
  rename_i build hbuild
  obtain ⟨tags, htags, heq⟩ := Option.map_eq_some_iff.mp hparse
  obtain rfl := Except.ok.inj heq
  exact ⟨hname, hversion, build, hbuild, htags⟩

/-- The tags are the parsed ones, or their text is kept. -/
theorem parseTags_eq_some {buildTag : Option BuildTag}
    {pythonTag abiTag platformTag repr : Text} {isSmall : Bool} {tags : WheelTag}
    (hparse : parseTags buildTag pythonTag abiTag platformTag isSmall (some repr) = some tags) :
    (isSmall = true ∧ ∃ small : WheelTagSmall, tags = .small small ∧
      LanguageTag.fromStr pythonTag = .ok small.pythonTag ∧
      AbiTag.fromStr abiTag = .ok small.abiTag ∧
      PlatformTag.fromStr platformTag = .ok small.platformTag) ∨
    ∃ large : WheelTagLarge, tags = .large large ∧ large.repr = repr := by
  unfold parseTags at hparse
  simp only at hparse
  split at hparse
  · rename_i small hsmall
    obtain rfl := Option.some.inj hparse
    split at hsmall
    · rename_i hisSmall
      split at hsmall
      · rename_i python abi platform hpython habi hplatform
        obtain rfl := Option.some.inj hsmall
        exact .inl ⟨hisSmall, _, rfl, hpython, habi, hplatform⟩
      · cases hsmall
    · cases hsmall
  · obtain rfl := Option.some.inj hparse
    exact .inr ⟨_, rfl, rfl⟩

/-- The file names that are read have five or six parts. -/
theorem parse_eq_ok {stem filename : Text} {wheel : WheelFilename}
    (hparse : parse stem filename = some (.ok wheel)) :
    (∃ name version pythonTag abiTag platformTag : Text, '-' ∉ name ∧ '-' ∉ version ∧
      '-' ∉ pythonTag ∧ '-' ∉ abiTag ∧ '-' ∉ platformTag ∧
      stem = name ++ '-' :: (version ++ '-' :: tagsText pythonTag abiTag platformTag) ∧
      parseParts filename name version none pythonTag abiTag platformTag
        (!('-' :: tagsText pythonTag abiTag platformTag).contains '.')
        (some (tagsText pythonTag abiTag platformTag)) = some (.ok wheel)) ∨
    ∃ name version buildTag pythonTag abiTag platformTag : Text, '-' ∉ name ∧ '-' ∉ version ∧
      '-' ∉ buildTag ∧ '-' ∉ pythonTag ∧ '-' ∉ abiTag ∧ '-' ∉ platformTag ∧
      stem = name ++ '-' :: (version ++ '-' :: (buildTag ++ '-' ::
        tagsText pythonTag abiTag platformTag)) ∧
      parseParts filename name version (some buildTag) pythonTag abiTag platformTag false
        (some (buildTag ++ '-' :: tagsText pythonTag abiTag platformTag)) =
          some (.ok wheel) := by
  rcases parts_cases stem with hwrong | ⟨name, version, pythonTag, abiTag, platformTag, hname,
    hversion, hpython, habi, hplatform, rfl⟩ | ⟨name, version, buildTag, pythonTag, abiTag,
    platformTag, hname, hversion, hbuild, hpython, habi, hplatform, rfl⟩
  · obtain ⟨message, herror⟩ := hwrong filename
    rw [herror] at hparse
    cases hparse
  · rw [parse_five filename hname hversion hpython habi hplatform] at hparse
    exact .inl ⟨_, _, _, _, _, hname, hversion, hpython, habi, hplatform, rfl, hparse⟩
  · rw [parse_six filename hname hversion hbuild hpython habi hplatform] at hparse
    exact .inr ⟨_, _, _, _, _, _, hname, hversion, hbuild, hpython, habi, hplatform, rfl, hparse⟩

end WheelFilename

end Uv.DistributionFilename
