import Uv.Pep440.VersionDisplay

/-!
# Parsing displayed versions again

Every number the parser stores is within range, and every local segment reads as
itself: each stage of the parser keeps this up.  So a parsed version is one the
grammar takes back, component by component.
-/

namespace Uv.Pep440

open Uv.Core Grammar

/-! ## What the parser stores -/

namespace LocalSegment

theorem normal_number {n : ℕ} (hn : n ≤ u64Max) : (number n).Normal where
  ne_nil := displayNat_ne_nil n
  alphanumeric byte hbyte := by
    rw [Byte.isAsciiAlphanumeric, isAsciiDigit_displayNat hbyte]
    rfl
  segment_eq := by
    have hdigits : (displayNat n).all Byte.isAsciiDigit = true :=
      List.all_eq_true.mpr fun byte => isAsciiDigit_displayNat
    rw [display, Groups.segment, decimal_displayNat, if_pos ⟨hdigits, hn⟩]

/-- A segment of the local part is stored so that it reads as itself. -/
theorem normal_segment {text : List Byte} (hne : text ≠ [])
    (halnum : ∀ byte ∈ text, Byte.isAsciiAlphanumeric byte = true) :
    (Groups.segment text).Normal := by
  have hbytes : ∀ b : Byte,
      (Byte.isAsciiAlphanumeric b = true →
        Byte.isAsciiAlphanumeric (Byte.toAsciiLowercase b) = true) ∧
      Byte.isAsciiDigit (Byte.toAsciiLowercase b) = Byte.isAsciiDigit b ∧
      Byte.toAsciiLowercase (Byte.toAsciiLowercase b) = Byte.toAsciiLowercase b ∧
      (Byte.isAsciiDigit b = true → Byte.toAsciiLowercase b = b) := by
    decide +kernel
  rw [Groups.segment]
  split
  · rename_i hnumber
    exact normal_number hnumber.2
  · rename_i hstring
    constructor
    · simpa [display] using hne
    · intro byte hbyte
      obtain ⟨b, hb, rfl⟩ := List.mem_map.mp hbyte
      exact (hbytes b).1 (halnum b hb)
    · have hall : (text.map Byte.toAsciiLowercase).all Byte.isAsciiDigit =
          text.all Byte.isAsciiDigit := by
        rw [List.all_map]
        exact congrArg text.all (funext fun b => (hbytes b).2.1)
      have hlower : (text.map Byte.toAsciiLowercase).map Byte.toAsciiLowercase =
          text.map Byte.toAsciiLowercase := by
        rw [List.map_map]
        exact List.map_congr_left fun b _ => (hbytes b).2.2.1
      rw [display, Groups.segment, if_neg, hlower]
      rintro ⟨hdigits, hvalue⟩
      rw [hall] at hdigits
      have hsame : text.map Byte.toAsciiLowercase = text := by
        calc text.map Byte.toAsciiLowercase
            = text.map id := List.map_congr_left fun b hb =>
              (hbytes b).2.2.2 (List.all_eq_true.mp hdigits b hb)
          _ = text := List.map_id text
      rw [hsame] at hvalue
      exact hstring ⟨hdigits, hvalue⟩

end LocalSegment

namespace Parser

variable {parser parser' : Parser}

/-- The components read so far. -/
def full (parser : Parser) : VersionFull where
  epoch := parser.epoch
  release := parser.release
  pre := parser.pre
  post := parser.post
  dev := parser.dev
  localVersion := .segments parser.localSegments
  min := none
  max := none

theorem stored_new (v : List Byte) : (Parser.new v).full.Stored where
  epoch := Nat.zero_le _
  release n hn := by cases hn
  pre pre hpre := by cases hpre
  post post hpost := by cases hpost
  dev dev hdev := by cases hdev
  localVersion := ⟨[], rfl, fun segment hsegment => by cases hsegment⟩
  min := rfl
  max := rfl

theorem le_of_number {digits : List Byte} {n : ℕ} (hnumber : number digits = some n) :
    n ≤ u64Max := by
  rw [number] at hnumber
  split at hnumber
  · rename_i hle
    exact Option.some.inj hnumber ▸ hle
  · cases hnumber

theorem parseNumber_ok {result : Option ℕ}
    (hparse : parser.parseNumber = .ok (result, parser')) :
    (∃ count, parser' = parser.advance count) ∧ ∀ n, result = some n → n ≤ u64Max := by
  rcases parseNumber_cases parser with ⟨-, hnone⟩ | ⟨digits, n, count, -, hn, hsome, -⟩ |
    ⟨digits, err, -, -, herror⟩
  · rw [hnone] at hparse
    cases hparse
    exact ⟨⟨0, rfl⟩, fun n hn => by cases hn⟩
  · rw [hsome] at hparse
    cases hparse
    refine ⟨⟨count, rfl⟩, ?_⟩
    intro m hm
    cases hm
    exact le_of_number hn
  · rw [herror] at hparse
    cases hparse

theorem parseSuffixNumber_ok {n : ℕ}
    (hparse : parser.parseSuffixNumber = .ok (n, parser')) :
    (∃ count, parser' = parser.advance count) ∧ n ≤ u64Max := by
  rcases parseSuffixNumber_cases parser with ⟨m, count, hm, hok, -⟩ | ⟨err, -, herror⟩
  · rw [hok] at hparse
    cases hparse
    refine ⟨⟨count, rfl⟩, ?_⟩
    unfold numberOrZero at hm
    split at hm
    · cases hm
      exact Nat.zero_le _
    · exact le_of_number hm
  · rw [herror] at hparse
    cases hparse

theorem bumpIf_some {string : List Byte} (hbump : parser.bumpIf string = some parser') :
    ∃ count, parser' = parser.advance count := by
  unfold bumpIf at hbump
  split at hbump
  · cases hbump
  · split at hbump
    · exact ⟨_, (Option.some.inj hbump).symm⟩
    · cases hbump

theorem skipByteSet_advance (parser : Parser) (set : List Byte) :
    ∃ count, parser.skipByteSet set = parser.advance count := by
  unfold skipByteSet bumpIfByteSet
  cases parser.rest with
  | nil => exact ⟨0, rfl⟩
  | cons byte rest =>
      dsimp only
      split
      · rename_i heq
        split at heq
        · cases heq
          exact ⟨1, rfl⟩
        · cases heq
      · exact ⟨0, rfl⟩

theorem bumpIfStringSet_some {strings : List (List Byte)} {index : ℕ}
    (hbump : parser.bumpIfStringSet strings = some (index, parser')) :
    ∃ count, parser' = parser.advance count := by
  unfold bumpIfStringSet at hbump
  split at hbump
  · cases hbump
    exact ⟨_, rfl⟩
  · cases hbump

/-! ### The stages -/

/-- A release number has been read, and all that was read can be stored. -/
def Ready (parser : Parser) : Prop := parser.full.Stored ∧ parser.release ≠ []

theorem stored_push (hstored : parser.full.Stored) {n : ℕ} (hn : n ≤ u64Max) :
    ({ parser with release := parser.release ++ [n] } : Parser).full.Stored := by
  refine { hstored with release := ?_ }
  intro m hm
  rcases List.mem_append.mp hm with hm | hm
  · exact hstored.release m hm
  · exact List.mem_singleton.mp hm ▸ hn

theorem parseEpochAndInitialRelease_stored (hstored : parser.full.Stored)
    (hparse : parser.parseEpochAndInitialRelease = .ok parser') :
    parser'.Ready := by
  unfold parseEpochAndInitialRelease at hparse
  split at hparse
  · cases hparse
  · cases hparse
  · rename_i first next hfirst
    obtain ⟨⟨count, rfl⟩, hle⟩ := parseNumber_ok hfirst
    have hfirstLe := hle first rfl
    split at hparse
    · cases hparse
      exact ⟨stored_push hstored hfirstLe, by simp⟩
    · rename_i bumped hbang
      obtain ⟨count', rfl⟩ := bumpIf_some hbang
      split at hparse
      · cases hparse
      · cases hparse
      · rename_i n next' hn
        obtain ⟨⟨count'', rfl⟩, hle'⟩ := parseNumber_ok hn
        cases hparse
        exact ⟨{ stored_push hstored (hle' n rfl) with epoch := hfirstLe }, by simp⟩

theorem parseRestOfReleaseLoop_stored {fuel : ℕ}
    (hready : parser.Ready)
    (hparse : parseRestOfReleaseLoop fuel parser = .ok parser') :
    parser'.Ready := by
  induction fuel generalizing parser with
  | zero =>
      cases hparse
      exact hready
  | succ fuel ih =>
      unfold parseRestOfReleaseLoop at hparse
      split at hparse
      · cases hparse
        exact hready
      · rename_i bumped hdot
        obtain ⟨count, rfl⟩ := bumpIf_some hdot
        split at hparse
        · cases hparse
        · rename_i next hnone
          obtain ⟨⟨count', rfl⟩, -⟩ := parseNumber_ok hnone
          cases hparse
          exact hready
        · rename_i n next hsome
          obtain ⟨⟨count', rfl⟩, hle⟩ := parseNumber_ok hsome
          have hpushed := stored_push
            (show ((parser.advance count).advance count').full.Stored from hready.1)
            (hle n rfl)
          exact ih ⟨hpushed, by simp⟩ hparse

theorem parseWildcard_stored (hready : parser.Ready)
    {wildcard : Bool} (hparse : parser.parseWildcard = .ok (wildcard, parser')) :
    parser'.Ready := by
  unfold parseWildcard at hparse
  split at hparse
  · cases hparse
    exact hready
  · rename_i bumped hstar
    obtain ⟨count, rfl⟩ := bumpIf_some hstar
    split at hparse
    · cases hparse
      exact hready
    · cases hparse

theorem parsePre_stored (hready : parser.Ready)
    (hparse : parser.parsePre = .ok parser') :
    parser'.Ready := by
  obtain ⟨skip, hskip⟩ := skipByteSet_advance parser separator
  unfold parsePre at hparse
  simp only [hskip] at hparse
  split at hparse
  · cases hparse
    exact hready
  · rename_i index spelled hspelled
    obtain ⟨count, rfl⟩ := bumpIfStringSet_some hspelled
    split at hparse
    · cases hparse
    · rename_i n next hnumber
      obtain ⟨⟨count', rfl⟩, hle⟩ := parseSuffixNumber_ok hnumber
      cases hparse
      refine ⟨{ hready.1 with pre := ?_ }, hready.2⟩
      intro pre hpre
      cases hpre
      exact hle

theorem parseSpelledPost_stored (hready : parser.Ready)
    (hparse : parser.parseSpelledPost = .ok parser') :
    parser'.Ready := by
  obtain ⟨skip, hskip⟩ := skipByteSet_advance parser separator
  unfold parseSpelledPost at hparse
  simp only [hskip] at hparse
  split at hparse
  · cases hparse
    exact hready
  · rename_i index spelled hspelled
    obtain ⟨count, rfl⟩ := bumpIfStringSet_some hspelled
    split at hparse
    · cases hparse
    · rename_i n next hnumber
      obtain ⟨⟨count', rfl⟩, hle⟩ := parseSuffixNumber_ok hnumber
      cases hparse
      refine ⟨{ hready.1 with post := ?_ }, hready.2⟩
      intro post hpost
      cases hpost
      exact hle

theorem parsePost_stored (hready : parser.Ready)
    (hparse : parser.parsePost = .ok parser') :
    parser'.Ready := by
  unfold parsePost at hparse
  simp only at hparse
  split at hparse
  · exact parseSpelledPost_stored hready hparse
  · rename_i bumped hdash
    obtain ⟨count, rfl⟩ := bumpIf_some hdash
    split at hparse
    · cases hparse
    · rename_i n next hsome
      obtain ⟨⟨count', rfl⟩, hle⟩ := parseNumber_ok hsome
      cases hparse
      refine ⟨{ hready.1 with post := ?_ }, hready.2⟩
      intro post hpost
      cases hpost
      exact hle n rfl
    · rename_i next hnone
      obtain ⟨⟨count', rfl⟩, -⟩ := parseNumber_ok hnone
      exact parseSpelledPost_stored hready hparse

theorem parseDev_stored (hready : parser.Ready)
    (hparse : parser.parseDev = .ok parser') :
    parser'.Ready := by
  obtain ⟨skip, hskip⟩ := skipByteSet_advance parser separator
  unfold parseDev at hparse
  simp only [hskip] at hparse
  split at hparse
  · cases hparse
    exact hready
  · rename_i bumped hdev
    obtain ⟨count, rfl⟩ := bumpIf_some hdev
    split at hparse
    · cases hparse
    · rename_i n next hnumber
      obtain ⟨⟨count', rfl⟩, hle⟩ := parseSuffixNumber_ok hnumber
      cases hparse
      refine ⟨{ hready.1 with dev := ?_ }, hready.2⟩
      intro dev hdev
      cases hdev
      exact hle

theorem parseLocalLoop_stored {fuel : ℕ} {precursor : Byte}
    (hready : parser.Ready)
    (hparse : parseLocalLoop fuel precursor parser = .ok parser') :
    parser'.Ready := by
  induction fuel generalizing parser precursor with
  | zero =>
      cases hparse
      exact hready
  | succ fuel ih =>
      rw [parseLocalLoop_succ] at hparse
      split at hparse
      · cases hparse
      · rename_i hempty
        have hnormal : (localSegment
            (parser.rest.takeWhile Byte.isAsciiAlphanumeric)).Normal := by
          rw [localSegment_eq]
          exact LocalSegment.normal_segment (by simpa using hempty)
            fun byte hbyte => List.mem_takeWhile_imp hbyte
        have hready' : parser.afterSegment.Ready := by
          obtain ⟨parts, hparts, hall⟩ := hready.1.localVersion
          cases hparts
          refine ⟨{ hready.1 with localVersion := ⟨_, rfl, ?_⟩ }, hready.2⟩
          intro segment hsegment
          rcases List.mem_append.mp hsegment with hsegment | hsegment
          · exact hall segment hsegment
          · exact List.mem_singleton.mp hsegment ▸ hnormal
        split at hparse
        · cases hparse
          exact hready'
        · split at hparse
          · exact @ih (parser.afterSegment.advance 1) _ hready' hparse
          · cases hparse
            exact hready'

theorem parseLocal_stored (hready : parser.Ready)
    (hparse : parser.parseLocal = .ok parser') :
    parser'.Ready := by
  unfold parseLocal at hparse
  split at hparse
  · cases hparse
    exact hready
  · rename_i bumped hplus
    obtain ⟨count, rfl⟩ := bumpIf_some hplus
    exact @parseLocalLoop_stored (parser.advance count) _ _ _ hready hparse

/-- The versions made from what was read. -/
theorem Ready.intoPattern (hready : parser.Ready) :
    parser.intoPattern.version.makeFull.Stored ∧
      parser.intoPattern.version.makeFull.release ≠ [] := by
  rw [makeFull_intoPattern]
  exact hready

theorem parseSuffixes_stored {vpat : VersionPattern} (hready : parser.Ready)
    (hparse : parser.parseSuffixes = .ok vpat) :
    vpat.version.makeFull.Stored ∧ vpat.version.makeFull.release ≠ [] := by
  unfold parseSuffixes at hparse
  obtain ⟨afterPre, hpre, hparse⟩ := bind_eq_ok hparse
  have hready := parsePre_stored hready hpre
  obtain ⟨afterPost, hpost, hparse⟩ := bind_eq_ok hparse
  have hready := parsePost_stored hready hpost
  obtain ⟨afterDev, hdev, hparse⟩ := bind_eq_ok hparse
  have hready := parseDev_stored hready hdev
  obtain ⟨afterLocal, hlocal, hparse⟩ := bind_eq_ok hparse
  have hready := parseLocal_stored hready hlocal
  unfold parseEnd at hparse
  simp only at hparse
  split at hparse
  · cases hparse
    exact @Ready.intoPattern (afterLocal.bumpWhile Byte.isAsciiWhitespace).2 hready
  · cases hparse

theorem parseSlow_stored {vpat : VersionPattern} (hstored : parser.full.Stored)
    (hparse : parser.parseSlow = .ok vpat) :
    vpat.version.makeFull.Stored ∧ vpat.version.makeFull.release ≠ [] := by
  have htrimmed : (((parser.bumpWhile Byte.isAsciiWhitespace).2.bumpIf
      (ascii "v")).getD (parser.bumpWhile Byte.isAsciiWhitespace).2).full.Stored := by
    cases hv : (parser.bumpWhile Byte.isAsciiWhitespace).2.bumpIf (ascii "v") with
    | none => exact hstored
    | some bumped =>
        obtain ⟨count, rfl⟩ := bumpIf_some hv
        exact hstored
  unfold parseSlow at hparse
  obtain ⟨afterEpoch, hepoch, hparse⟩ := bind_eq_ok hparse
  have hready := parseEpochAndInitialRelease_stored htrimmed hepoch
  obtain ⟨afterRelease, hrelease, hparse⟩ := bind_eq_ok hparse
  have hready := parseRestOfReleaseLoop_stored hready hrelease
  obtain ⟨⟨wildcard, afterWildcard⟩, hwildcard, hparse⟩ := bind_eq_ok hparse
  have hready := parseWildcard_stored hready hwildcard
  simp only at hparse
  split at hparse
  · cases hparse
    exact hready.intoPattern
  · exact parseSuffixes_stored hready hparse

/-- What a version pattern holds when it is parsed. -/
theorem parsePattern_stored {v : List Byte} {vpat : VersionPattern}
    (hparse : (Parser.new v).parsePattern = .ok vpat) :
    vpat.version.makeFull.Stored ∧ vpat.version.makeFull.release ≠ [] := by
  unfold parsePattern at hparse
  split at hparse
  · rename_i fast hfast
    cases hparse
    unfold parseFast at hfast
    split at hfast
    · cases hfast
    · rename_i numbers hloop
      obtain ⟨hlength, texts, hdotted, hnumbers⟩ :=
        parseFastLoop_spec _ [] (by simp) (by simp [decimal]) hloop
      rw [List.nil_append] at hnumbers
      obtain ⟨-, -, hbound⟩ := hdotted.splitOnP
      rw [← hnumbers] at hbound
      have hne : numbers ≠ [] := by
        rw [hnumbers]
        cases hdotted <;> simp
      rw [← Option.some.inj hfast, small_eq_new hne hlength hbound, Version.makeFull_new]
      refine ⟨{ stored_new v with release := ?_ }, hne⟩
      intro n hn
      exact (hbound n hn).trans (by decide)
  · exact parseSlow_stored (stored_new v) hparse

end Parser

namespace Version

theorem stored_of_fromStr {s : List Byte} {version : Version}
    (hparse : fromStr s = .ok version) :
    version.makeFull.Stored ∧ version.makeFull.release ≠ [] := by
  unfold fromStr Parser.parse at hparse
  split at hparse
  · rename_i vpat hpattern
    split at hparse
    · cases hparse
    · cases hparse
      exact Parser.parsePattern_stored hpattern
  · cases hparse
  · cases hparse

/-- Displaying a parsed version and parsing it again gives every component
back. -/
theorem components_fromStr_display {s : List Byte} {version : Version}
    (hparse : fromStr s = .ok version) :
    ∃ version', fromStr version.display = .ok version' ∧
      version'.components = version.components := by
  obtain ⟨hstored, hrelease⟩ := stored_of_fromStr hparse
  rw [← components_eq] at hrelease
  have hdisplay := makeFull_fromStr_display hstored hrelease
  obtain ⟨version', hversion', hfull⟩ := Option.map_eq_some_iff.mp hdisplay
  refine ⟨version', ?_, by rw [components_eq, components_eq, hfull]⟩
  cases hresult : fromStr version.display with
  | error err =>
      rw [hresult] at hversion'
      cases hversion'
  | ok result =>
      rw [hresult] at hversion'
      cases hversion'
      rfl

/-- `V1!02.0RC-3.post+Ubuntu.007` is displayed as `1!2.0rc3.post0+ubuntu.7`. -/
theorem components_fromStr_display_ubuntu : ∃ version version',
    fromStr (ascii "V1!02.0RC-3.post+Ubuntu.007") = .ok version ∧
      version.display = ascii "1!2.0rc3.post0+ubuntu.7" ∧
      fromStr version.display = .ok version' ∧
      version'.components = version.components := by
  have hdisplay : (fromStr (ascii "V1!02.0RC-3.post+Ubuntu.007")).toOption.map display =
      some (ascii "1!2.0rc3.post0+ubuntu.7") := by
    decide +kernel
  cases hparse : fromStr (ascii "V1!02.0RC-3.post+Ubuntu.007") with
  | error err =>
      rw [hparse] at hdisplay
      cases hdisplay
  | ok version =>
      rw [hparse] at hdisplay
      obtain ⟨version', hversion', hcomponents⟩ := components_fromStr_display hparse
      exact ⟨version, version', rfl, Option.some.inj hdisplay, hversion', hcomponents⟩

end Version

end Uv.Pep440
